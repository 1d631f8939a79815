import DlxOs.Library.Monitor
import DlxOs.Queue.Heap

/-!
# The tables of the kernel and its elementary actions

The state holds the variables of `os/process.c` and `os/synch.c` that the
scheduler and the synchronization primitives use. A kernel function returns or
stops the simulator; what it prints before is kept in `console`.

## Implementation notes

Memory pages, stack frames and debugging output are left out: no function
modelled here decides anything by them. A pointer into a table is its index.
-/

namespace DlxOs.Kernel

open Queue Monitors

def processMaxProcs : Nat := 32

def maxSems : Nat := 32

def maxLocks : Nat := 64

def maxConds : Nat := 32

def syncFail : Int := -1

def syncSuccess : Int := 1

def invalidCond : Int := -1

abbrev PcbPtr := Fin processMaxProcs

abbrev SemPtr := Fin maxSems

abbrev LockPtr := Fin maxLocks

abbrev CondPtr := Fin maxConds

/-- The object in which a `waiting` queue lies. -/
abbrev WaitObject := WaitPoint SemPtr LockPtr CondPtr

/-- The queues of `process.c` and the `waiting` queues of `synch.c`. -/
inductive KQueue
  | freepcbs
  | runQueue
  | waitQueue
  | zombieQueue
  | waiting (w : WaitObject)
  deriving DecidableEq

def processStatusFree : BitVec 32 := 0x1

def processStatusRunnable : BitVec 32 := 0x2

def processStatusWaiting : BitVec 32 := 0x4

def processStatusZombie : BitVec 32 := 0x10

def processStatusMask : BitVec 32 := 0x3f

def processTypeSystem : BitVec 32 := 0x100

def processTypeUser : BitVec 32 := 0x200

structure PCB where
  flags : BitVec 32
  l : Option LinkPtr

structure Sem where
  count : Int
  inuse : Bool

structure Lock where
  pid : Int
  inuse : Bool

structure Cond where
  lock : Int
  inuse : Bool

/-- The variables of the kernel. -/
structure KState where
  heap : Heap KQueue PcbPtr
  pcbs : PcbPtr → PCB
  currentPCB : Option PcbPtr
  sems : SemPtr → Sem
  locks : LockPtr → Lock
  conds : CondPtr → Cond
  intrs : BitVec 4
  console : List String

/-- Ways in which a kernel function does not return. -/
inductive Halt
  /-- `exitsim ()`, after the texts on the console. -/
  | exitsim (console : List String)
  /-- A table was indexed outside its bounds. -/
  | wildAccess
  /-- A null pointer was followed. -/
  | nullAccess
  /-- A loop ran longer than its table has entries. -/
  | diverged

abbrev KernelM := StateT KState (Except Halt)

@[simp] theorem ok_bind {ε α β : Type} (a : α) (f : α → Except ε β) :
    (Except.ok a >>= f) = f a := rfl

/-- What returns after two computations has returned from each of them. -/
theorem ok_bind_inv {ε α β : Type} {x : Except ε α} {f : α → Except ε β} {b : β}
    (e : x >>= f = .ok b) : ∃ a, x = .ok a ∧ f a = .ok b := by
  cases x with
  | error e' => cases e
  | ok a => exact ⟨a, rfl, e⟩

namespace KState

def setHeap (K : KState) (h : Heap KQueue PcbPtr) : KState := { K with heap := h }

def setPcb (K : KState) (p : PcbPtr) (b : PCB) : KState :=
  { K with pcbs := Function.update K.pcbs p b }

def setFlags (K : KState) (p : PcbPtr) (flags : BitVec 32) : KState :=
  K.setPcb p { K.pcbs p with flags := flags }

/-- `pcb->l = l` -/
def setLink (K : KState) (p : PcbPtr) (l : Option LinkPtr) : KState :=
  K.setPcb p { K.pcbs p with l := l }

def setCount (K : KState) (s : SemPtr) (n : Int) : KState :=
  { K with sems := Function.update K.sems s { K.sems s with count := n } }

/-- `k->pid = pid` -/
def setPid (K : KState) (k : LockPtr) (pid : Int) : KState :=
  { K with locks := Function.update K.locks k { K.locks k with pid := pid } }

def setIntrs (K : KState) (level : BitVec 4) : KState := { K with intrs := level }

end KState

def printf (text : String) : KernelM Unit :=
  modify fun K => { K with console := K.console ++ [text] }

def exitsim {α : Type} : KernelM α := fun K => .error (.exitsim K.console)

/-- The message of a failed check, and the end of the simulation. -/
def fatal {α : Type} (text : String) : KernelM α := do
  printf text
  exitsim

/-- `ASSERT (cond, s)` in function `f`: a failed assertion is only printed. -/
def assert (f : String) (cond : Bool) (s : String) : KernelM Unit :=
  if cond then pure () else printf (f ++ ": " ++ s ++ "\n")

/-- The interrupt level becomes `level`, and the former one is returned. -/
def setIntrs (level : BitVec 4) : KernelM (BitVec 4) := do
  let K ← get
  set (K.setIntrs level)
  return K.intrs

def disableIntrs : KernelM (BitVec 4) := setIntrs 0xf

def restoreIntrs (intrs : BitVec 4) : KernelM Unit := do
  let _ ← setIntrs intrs

/-- A new link with object `p`; without one, `text` is printed and the simulation ends. -/
def allocLink (p : PcbPtr) (text : String) : KernelM LinkPtr := do
  let K ← get
  let (l, h) := aQueueAllocLink K.heap (some p)
  set (K.setHeap h)
  match l with
  | none => fatal text
  | some l => return l

/-- The check of a queue operation on the heap: `text` is printed unless it succeeds. -/
def checked (op : Heap KQueue PcbPtr → Int × Heap KQueue PcbPtr) (text : String) :
    KernelM Unit := do
  let K ← get
  let (r, h) := op K.heap
  set (K.setHeap h)
  if r ≠ queueSuccess then fatal text

def insertLast (q : KQueue) (l : Option LinkPtr) (text : String) : KernelM Unit :=
  checked (fun h => aQueueInsertLast h (some (.named q)) l) text

def insertFirst (q : KQueue) (l : Option LinkPtr) (text : String) : KernelM Unit :=
  checked (fun h => aQueueInsertFirst h (some (.named q)) l) text

/-- `AQueueRemove (&l)` on a local variable, which is not read again. -/
def removeLink (l : Option LinkPtr) (text : String) : KernelM Unit :=
  checked (fun h => let (r, _, h) := aQueueRemove h (some l); (r, h)) text

/-- `AQueueRemove (&(pcb->l))` -/
def removePcb (p : PcbPtr) (text : String) : KernelM Unit := do
  let K ← get
  let (r, l, h) := aQueueRemove K.heap (some (K.pcbs p).l)
  set ((K.setHeap h).setLink p l)
  if r ≠ queueSuccess then fatal text

/-- `pcb->l = AQueueAllocLink (pcb)` -/
def allocPcb (p : PcbPtr) (text : String) : KernelM Unit := do
  let l ← allocLink p text
  modify fun K => K.setLink p (some l)

/-- `(PCB *)AQueueObject (AQueueFirst (q))`, with the link -/
def firstPcb (q : KQueue) : KernelM (LinkPtr × PcbPtr) := do
  let K ← get
  match aQueueFirst K.heap (.named q) with
  | none => throw .nullAccess
  | some l =>
    match aQueueObject K.heap l with
    | none => throw .nullAccess
    | some p => return (l, p)

/-- `AQueueEmpty (&q)` -/
def isEmpty (q : KQueue) : KernelM Bool := do
  return aQueueEmpty (← get).heap (.named q)

/-- `AQueueInit (&q)`, whose failure would print `text`. -/
def initQueue (q : KQueue) (text : String) : KernelM Unit :=
  checked (fun h => aQueueInit h (some (.named q))) text

/-- The process the kernel works for; the source follows the pointer unchecked. -/
def current : KernelM PcbPtr := do
  match (← get).currentPCB with
  | none => throw .nullAccess
  | some p => return p

end DlxOs.Kernel
