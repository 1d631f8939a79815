import DlxOs.Context.Frames
import DlxOs.Library.Transition

/-!
# Interrupts, traps and context switches

The processor, with the entries into the kernel that have not been returned
from, for every process the latest one first. Interrupts and traps enter
through `_intrhandler`; `_intrreturn` takes the latest entry of the process that
`currentPCB` points to. In between, code of any kind runs, and in system mode
`ProcessSetResult`, `ProcessFork` and assignments to `currentPCB`.

## Implementation notes

The kernel runs on stacks that are disjoint, below the frames that are saved on
them. So a frame that is pushed in system mode, and the words that
`_intrreturn` uses for its call, are off the frames that are still saved.
-/

namespace DlxOs.Context

open Dlx Transition

/-- Where the variable `currentPCB` and the process control blocks are, and the return addresses in
`_intrreturn`. -/
structure Layout (ι : Type*) where
  currentPCB : Word
  pcb : ι → Word
  labels : ℕ → Word
  currentPCB_pcb : ∀ p, Disjoint (area currentPCB 4) (area (pcb p) 8)
  pcb_pcb : ∀ p q, p ≠ q → Disjoint (area (pcb p) 8) (area (pcb q) 8)

/-- An entry into the kernel: where the frame is, what it interrupted, the result that was set since
then, and the two pointers of the process before. -/
structure Entry where
  base : Word
  context : State
  result : Option Word
  currentSavedFrame : Word
  sysStackPtr : Word

structure Os (ι : Type*) where
  cpu : State
  entries : ι → List Entry

inductive Event (ι : Type*)
  | code
  | setResult (p : ι)
  | fork (p : ι)
  | enter (p : ι)
  | leave (p : ι)

/-- What a return from the entry brings back. -/
def Entry.restored (e : Entry) : State := e.result.elim e.context (e.context.setReg 1)

def Entry.FromUser (e : Entry) : Prop := UserMode (e.context.special .isr)

def processSetResult (pcb result : Word) (μ : Memory) : Memory :=
  store μ (cell (load μ pcb) (processStackIreg + 1)) result

/-- The processor takes an interrupt or a trap. -/
structure Interrupts (s s' : State) : Prop where
  r : s'.r = s.r
  f : s'.f = s.f
  mem : s'.mem = s.mem
  ir31 : s'.special .ir31 = s.r 31
  isr : s'.special .isr = s.special .status
  status : ¬ UserMode (s'.special .status)

section Steps

variable {ι : Type*} [DecidableEq ι] (L : Layout ι)

/-- The variable and the pointers of all processes. -/
def Layout.variables : Set Word := {x | x ∈ area L.currentPCB 4 ∨ ∃ p, x ∈ area (L.pcb p) 8}

/-- An area off the variables and the saved frames. -/
structure Os.Free (o : Os ι) (A : Set Word) : Prop where
  kernel : Disjoint A L.variables
  frames : ∀ p, ∀ e ∈ o.entries p, Disjoint A (frameArea e.base)

/-- What code leaves alone. -/
structure Os.Code (o : Os ι) (s : State) : Prop where
  frames : ∀ p, ∀ e ∈ o.entries p, ∀ x ∈ frameArea e.base, s.mem x = o.cpu.mem x
  pointers : ∀ p, ∀ x ∈ area (L.pcb p) 8, s.mem x = o.cpu.mem x
  current : load s.mem L.currentPCB = load o.cpu.mem L.currentPCB ∨
    ¬ UserMode (o.cpu.special .status) ∧ ∃ p, load s.mem L.currentPCB = L.pcb p
  mode : UserMode (s.special .status) ↔ UserMode (o.cpu.special .status)

/-- `ProcessFork` prepares a frame on the new stack of the process. -/
structure Os.Forks (o : Os ι) (p : ι) (e : Entry) (s : State) : Prop where
  mode : ¬ UserMode (o.cpu.special .status)
  kernel : Disjoint (frameArea e.base) L.variables
  frames : ∀ q ≠ p, ∀ e' ∈ o.entries q, Disjoint (frameArea e.base) (frameArea e'.base)
  special : s.special = o.cpu.special
  mem : ∀ x ∉ frameArea e.base, x ∉ area (L.pcb p) 8 → s.mem x = o.cpu.mem x
  saved : Saved s.mem e.base e.context
  result : e.result = none
  prevFrame : load s.mem (cell e.base processStackPrevFrame) = e.currentSavedFrame
  currentSavedFrame : load s.mem (L.pcb p) = e.base
  sysStackPtr : load s.mem (L.pcb p + 4) = e.base
  stack : e.sysStackPtr = e.base + 340

inductive Step : Os ι → Event ι → Os ι → Prop
  | code {o s} (h : o.Code L s) : Step o .code { o with cpu := s }
  | setResult {o : Os ι} {p e es v} (mode : ¬ UserMode (o.cpu.special .status))
      (h : o.entries p = e :: es) :
      Step o (.setResult p)
        ⟨{ o.cpu with mem := processSetResult (L.pcb p) v o.cpu.mem },
          Function.update o.entries p ({ e with result := some v } :: es)⟩
  | fork {o p e s} (h : o.Forks L p e s) :
      Step o (.fork p) ⟨s, Function.update o.entries p [e]⟩
  | enter {o : Os ι} {p s s'} (current : load o.cpu.mem L.currentPCB = L.pcb p)
      (interrupt : Interrupts o.cpu s)
      (stack : ¬ UserMode (o.cpu.special .status) →
        o.Free L (frameArea (o.cpu.r 29 - 340)))
      (h : run L.labels (intrhandler L.currentPCB) 0 s = some s') :
      Step o (.enter p) ⟨s', Function.update o.entries p
        (⟨frameBase (L.pcb p) s, s, none, load o.cpu.mem (L.pcb p),
          load o.cpu.mem (L.pcb p + 4)⟩ :: o.entries p)⟩
  | leave {o : Os ι} {p e es s} (mode : ¬ UserMode (o.cpu.special .status))
      (current : load o.cpu.mem L.currentPCB = L.pcb p) (entered : o.entries p = e :: es)
      (stack : o.Free L (area (o.cpu.r 29 - 40) 40))
      (h : run L.labels (intrreturn L.currentPCB) 0 o.cpu = some s) :
      Step o (.leave p) ⟨s, Function.update o.entries p es⟩

/-- The kernel starts in system mode, before the first process. -/
def system : System (Os ι) (Event ι) where
  Init o := ¬ UserMode (o.cpu.special .status) ∧ ∀ p, o.entries p = []
  Step := Step L

end Steps

end DlxOs.Context
