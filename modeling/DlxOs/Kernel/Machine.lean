import DlxOs.Kernel.Boot
import DlxOs.Kernel.TransferSpec

/-!
# The machine that runs processes over the kernel

A step is a timer interrupt, a fork, an exit, a sleep or a wakeup outside the
synchronization primitives, a call of a primitive up to its `ProcessSleep`, or
the return from a call after a sleep. `Machine.view` and `Machine.meaning` say
what a state and a step are for the processes.

## Implementation notes

Kernel code runs with interrupts disabled, so that a call is one step. Which
level a process had before is arbitrary.
-/

namespace DlxOs.Kernel

open Queue Monitors Transition

/-- What a process asks of the synchronization primitives. -/
inductive Syscall
  | semCreate (count : Int)
  | semWait (sem : Int)
  | semSignal (sem : Int)
  | lockCreate
  | lockAcquire (lock : Int)
  | lockRelease (lock : Int)
  | lockTransfer (k : LockPtr) (pcb : PcbPtr)
  | condCreate (lock : Int)
  | condWait (cond : Int)
  | condSignal (cond : Int)

/-- The function of the kernel behind a request. -/
def Syscall.run : Syscall → KernelM Ret
  | .semCreate count => return .returned (← Kernel.semCreate count)
  | .semWait sem => semHandleWait sem
  | .semSignal sem => semHandleSignal sem
  | .lockCreate => return .returned (← Kernel.lockCreate)
  | .lockAcquire lock => lockHandleAcquire lock
  | .lockRelease lock => lockHandleRelease lock
  | .lockTransfer k pcb => Kernel.lockTransfer k pcb
  | .condCreate lock => return .returned (← Kernel.condCreate lock)
  | .condWait cond => condHandleWait cond
  | .condSignal cond => condHandleSignal cond

/-- `LockTransfer` takes pointers: to a lock in use and to a process that is not free. -/
def Syscall.Legal (K : KState) : Syscall → Prop
  | .lockTransfer k pcb => (K.locks k).inuse = true ∧ K.statusOf pcb ≠ processStatusFree
  | _ => True

/-- The trap of a process that exits. -/
def trapExit : KernelM Unit := do
  processDestroy (← current)
  processSchedule false

/-- The kernel, and the processes inside a call with the interrupt level they are to restore. -/
structure Machine where
  kernel : KState
  pending : PcbPtr → Option (Syscall × BitVec 4)

inductive KEvent
  | tick
  | fork (answers : ForkAnswers) (r : Int)
  | exit (p : PcbPtr)
  | sleep (p : PcbPtr)
  | wakeup (p : PcbPtr)
  | call (p : PcbPtr) (c : Syscall) (r : Ret)
  | resume (p : PcbPtr) (c : Syscall) (r : Int)

namespace Machine

def setKernel (m : Machine) (K : KState) : Machine := { m with kernel := K }

def setPending (m : Machine) (p : PcbPtr) (o : Option (Syscall × BitVec 4)) : Machine :=
  { m with pending := Function.update m.pending p o }

/-- Process `p` is running and not inside a call. -/
def Active (m : Machine) (p : PcbPtr) : Prop := m.kernel.currentPCB = some p ∧ m.pending p = none

/-- After a call that sleeps the process is inside it. -/
def after (m : Machine) (p : PcbPtr) (c : Syscall) : Ret → KState → Machine
  | .returned _, K => m.setKernel K
  | .asleep i, K => (m.setKernel K).setPending p (some (c, i))

inductive Step (m : Machine) : KEvent → Machine → Prop
  | tick {K} (h : (processSchedule false).run m.kernel = .ok ((), K)) : Step m .tick (m.setKernel K)
  | fork {a r K} (h : (processFork a).run m.kernel = .ok (r, K)) :
      Step m (.fork a r) (m.setKernel K)
  | exit {p K} (active : m.Active p) (h : trapExit.run m.kernel = .ok ((), K)) :
      Step m (.exit p) (m.setKernel K)
  | sleep {p K} (active : m.Active p) (h : processSleep.run m.kernel = .ok ((), K)) :
      Step m (.sleep p) (m.setKernel K)
  | wakeup {p K} (running : m.kernel.currentPCB ≠ none) (outside : m.pending p = none)
      (waiting : m.kernel.statusOf p = processStatusWaiting)
      (h : (processWakeup p).run m.kernel = .ok ((), K)) : Step m (.wakeup p) (m.setKernel K)
  | call {p c level r K} (active : m.Active p) (legal : c.Legal m.kernel)
      (h : c.run.run (m.kernel.setIntrs level) = .ok (r, K)) :
      Step m (.call p c r) (m.after p c r K)
  | resume {p c i r K} (current : m.kernel.currentPCB = some p)
      (pending : m.pending p = some (c, i))
      (h : (wakeReturn i).run m.kernel = .ok (r, K)) :
      Step m (.resume p c r) ((m.setKernel K).setPending p none)

/-- Before the first process, `main` has set up the kernel. -/
def Init (m : Machine) : Prop :=
  (∃ K, Static K ∧ boot.run K = .ok ((), m.kernel)) ∧ ∀ p, m.pending p = none

end Machine

/-- The runs of the kernel. -/
def kernelSystem : System Machine KEvent where
  Init := Machine.Init
  Step := Machine.Step

/-- The call on the monitor that a request is, if its handle is within the table. -/
def Syscall.meaning : Syscall → Option KCall
  | .semWait sem => (index maxSems sem).map .semWait
  | .semSignal sem => (index maxSems sem).map .semSignal
  | .lockAcquire lock => (index maxLocks lock).map .acquire
  | .lockRelease lock => (index maxLocks lock).map .release
  | .lockTransfer k pcb => some (.transfer k pcb)
  | .condWait cond => (index maxConds cond).map .wait
  | .condSignal cond => (index maxConds cond).map .signal
  | _ => none

abbrev KMonitorEvent := Event PcbPtr SemPtr LockPtr CondPtr

namespace Machine

/-- What the processes see of the machine. -/
def view (m : Machine) : Session PcbPtr SemPtr LockPtr CondPtr where
  mon := m.kernel.monitor
  pending p := (m.pending p).bind fun e => e.1.meaning
  inuse := m.kernel.inuse

/-- What a step is for the processes; a refused request is nothing to them. -/
def meaning (m : Machine) : KEvent → KMonitorEvent
  | .exit p => .exit p
  | .call p c r =>
    match c.meaning with
    | some d => if m.kernel.inuse d.target then .call p d r.outcome else .idle
    | none =>
      match c, r with
      | .semCreate n, .returned r => ((index maxSems r).map fun s => Event.newSem s n).getD .idle
      | .lockCreate, .returned r => ((index maxLocks r).map Event.newLock).getD .idle
      | .condCreate lock, .returned r =>
        ((index maxConds r).bind fun c => (index maxLocks lock).map (Event.newCond c)).getD .idle
      | _, _ => .idle
  | .resume p c _ => (c.meaning.map (Event.ret p)).getD .idle
  | _ => .idle

end Machine

end DlxOs.Kernel
