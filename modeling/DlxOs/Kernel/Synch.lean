import DlxOs.Kernel.Process

/-!
# Semaphores, locks and condition variables, as in `os/synch.c`

A function that calls `ProcessSleep` ends here with the interrupt level that it
saved; after `ProcessSleep` all of them restore this level and return
`SYNC_SUCCESS`, which is `wakeReturn`.
-/

namespace DlxOs.Kernel

open Queue Monitors

/-- A call returns at once, or sleeps with the interrupt level it is to restore. -/
inductive Ret
  | returned (r : Int)
  | asleep (intrval : BitVec 4)
  deriving DecidableEq

/-- The entry of a table that a handle names, if it is within the table. -/
def index (n : Nat) (handle : Int) : Option (Fin n) :=
  if h : 0 ≤ handle ∧ handle < n then some ⟨handle.toNat, by omega⟩ else none

/-- `&locks[handle]`, which the source does not check. -/
def lockAt (handle : Int) : KernelM LockPtr :=
  match index maxLocks handle with
  | none => throw .wildAccess
  | some k => return k

def getCurrentPid : KernelM Int := do
  return (← current).val

/-- The trap by which a process goes to sleep inside the kernel. -/
def processSleep : KernelM Unit := do
  processSuspend (← current)
  processSchedule true

/-- What follows `ProcessSleep ()` in each of the functions. -/
def wakeReturn (intrval : BitVec 4) : KernelM Int := do
  restoreIntrs intrval
  return syncSuccess

/-- The current process joins a waiting queue. -/
def enqueueCurrent (w : WaitObject) (noLink noInsert : String) : KernelM Unit := do
  let l ← allocLink (← current) noLink
  insertLast (.waiting w) (some l) noInsert

/-- The first process of a waiting queue is taken off it. -/
def dequeueFirst (w : WaitObject) (noRemove : String) : KernelM PcbPtr := do
  let (l, pcb) ← firstPcb (.waiting w)
  removeLink (some l) noRemove
  return pcb

def semInit (s : SemPtr) (count : Int) : KernelM Int := do
  initQueue (.waiting (.sem s))
    "FATAL ERROR: could not initialize semaphore waiting queue in SemInit!\n"
  modify fun K => K.setCount s count
  return syncSuccess

def semCreate (count : Int) : KernelM Int := do
  let intrval ← disableIntrs
  let K ← get
  match (List.finRange maxSems).find? fun s => !(K.sems s).inuse with
  | none =>
    restoreIntrs intrval
    return syncFail
  | some s =>
    set { K with sems := Function.update K.sems s { K.sems s with inuse := true } }
    restoreIntrs intrval
    if (← semInit s count) ≠ syncSuccess then return syncFail
    return s.val

def semWait (s : SemPtr) : KernelM Ret := do
  let intrval ← disableIntrs
  let K ← get
  if (K.sems s).count ≤ 0 then
    enqueueCurrent (.sem s)
      "FATAL ERROR: could not allocate link for semaphore queue in SemWait!\n"
      "FATAL ERROR: could not insert new link into semaphore waiting queue in SemWait!\n"
    processSleep
    return .asleep intrval
  else
    set (K.setCount s ((K.sems s).count - 1))
    restoreIntrs intrval
    return .returned syncSuccess

def semSignal (s : SemPtr) : KernelM Ret := do
  let intrs ← disableIntrs
  modify fun K => K.setCount s ((K.sems s).count + 1)
  if 0 < ((← get).sems s).count then
    if !(← isEmpty (.waiting (.sem s))) then
      let pcb ← dequeueFirst (.sem s)
        "FATAL ERROR: could not remove link from semaphore queue in SemSignal!\n"
      processWakeup pcb
      modify fun K => K.setCount s ((K.sems s).count - 1)
  restoreIntrs intrs
  return .returned syncSuccess

def lockInit (k : LockPtr) : KernelM Int := do
  initQueue (.waiting (.lock k))
    "FATAL ERROR: could not initialize lock waiting queue in LockInit!\n"
  modify fun K => K.setPid k (-1)
  return syncSuccess

def lockCreate : KernelM Int := do
  let intrval ← disableIntrs
  let K ← get
  match (List.finRange maxLocks).find? fun k => !(K.locks k).inuse with
  | none =>
    restoreIntrs intrval
    return syncFail
  | some k =>
    set { K with locks := Function.update K.locks k { K.locks k with inuse := true } }
    restoreIntrs intrval
    if (← lockInit k) ≠ syncSuccess then return syncFail
    return k.val

def lockAcquire (k : LockPtr) : KernelM Ret := do
  let intrval ← disableIntrs
  let pid ← getCurrentPid
  let K ← get
  if (K.locks k).pid = pid then
    restoreIntrs intrval
    return .returned syncSuccess
  if 0 ≤ (K.locks k).pid then
    enqueueCurrent (.lock k)
      "FATAL ERROR: could not allocate link for lock queue in LockAcquire!\n"
      "FATAL ERROR: could not insert new link into lock waiting queue in LockAcquire!\n"
    processSleep
    return .asleep intrval
  else
    set (K.setPid k pid)
    restoreIntrs intrval
    return .returned syncSuccess

/-- The lock is freed, or assigned to the first process waiting for it, which is woken up;
the same statements stand in `LockRelease` and in `CondWait`. -/
def passLock (k : LockPtr) : KernelM Unit := do
  modify fun K => K.setPid k (-1)
  if !(← isEmpty (.waiting (.lock k))) then
    let pcb ← dequeueFirst (.lock k)
      "FATAL ERROR: could not remove link from lock queue in LockRelease!\n"
    modify fun K => K.setPid k pcb.val
    processWakeup pcb

/-- A caller that does not own the lock returns without `RestoreIntrs`. -/
def lockRelease (k : LockPtr) : KernelM Ret := do
  let intrs ← disableIntrs
  let pid ← getCurrentPid
  if ((← get).locks k).pid ≠ pid then return .returned syncFail
  passLock k
  restoreIntrs intrs
  return .returned syncSuccess

/-- The loop of `LockTransfer` from link `l` on: the new owner is woken up if it waits here. -/
def transferWake (k : LockPtr) : Nat → Option LinkPtr → KernelM Unit
  | 0, _ => throw .diverged
  | _, none => pure ()
  | fuel + 1, some l => do
    let K ← get
    match aQueueObject K.heap l with
    | none => throw .nullAccess
    | some pcb =>
      if (pcb.val : Int) = (K.locks k).pid then
        removeLink (some l)
          "FATAL ERROR: could not remove link from lock queue in LockTransfer!\n"
        processWakeup pcb
      else transferWake k fuel (aQueueNext K.heap l)

/-- A caller that does not own the lock returns without `RestoreIntrs`. -/
def lockTransfer (k : LockPtr) (pcb : PcbPtr) : KernelM Ret := do
  let intrs ← disableIntrs
  let pid ← getCurrentPid
  if ((← get).locks k).pid ≠ pid then return .returned syncFail
  modify fun K => K.setPid k pcb.val
  transferWake k (queueMaxLinks + 1) (aQueueFirst (← get).heap (.named (.waiting (.lock k))))
  restoreIntrs intrs
  return .returned syncSuccess

/-- `CondCreate`, with what it reads in `locks[lock].inuse`. -/
def condCreateFor (lock : Int) (inuse : Bool) : KernelM Int := do
  if !inuse then return invalidCond
  let intrval ← disableIntrs
  let K ← get
  match (List.finRange maxConds).find? fun c => !(K.conds c).inuse with
  | none =>
    restoreIntrs intrval
    return invalidCond
  | some c =>
    set { K with conds := Function.update K.conds c { lock := lock, inuse := true } }
    restoreIntrs intrval
    initQueue (.waiting (.cond c))
      "FATAL ERROR: Could not initialize conditional variable waiting queue in CondCreate!\n"
    return c.val

def condCreate (lock : Int) : KernelM Int := do
  let k ← lockAt lock
  condCreateFor lock ((← get).locks k).inuse

def condWait (c : CondPtr) : KernelM Ret := do
  let intrval ← disableIntrs
  let k ← lockAt ((← get).conds c).lock
  let pid ← getCurrentPid
  if ((← get).locks k).pid ≠ pid then
    printf "CondWait: Proc can't wait, doesn't own lock!\n"
    restoreIntrs intrval
    return .returned syncFail
  enqueueCurrent (.cond c)
    "FATAL ERROR: Could not allocate link for wait queue in CondWait!\n"
    "FATAL ERROR: Could not insert link for wait queue in CondWait!\n"
  passLock k
  processSleep
  return .asleep intrval

def condSignal (c : CondPtr) : KernelM Ret := do
  let intrval ← disableIntrs
  let k ← lockAt ((← get).conds c).lock
  let pid ← getCurrentPid
  if ((← get).locks k).pid ≠ pid then
    printf "CondWait: Proc can't wait, doesn't own lock!\n"
    restoreIntrs intrval
    return .returned syncFail
  if !(← isEmpty (.waiting (.cond c))) then
    let pcb ← dequeueFirst (.cond c)
      "FATAL ERROR: Could not remove link from conditional queue in CondSignal!\n"
    modify fun K => K.setPid k pcb.val
    enqueueCurrent (.lock k)
      "FATAL ERROR: Could not allocate link for conditional lock queue in CondSignal!\n"
      "FATAL ERROR: Could not insert link for conditional lock wait queue in CondSignal!\n"
    processWakeup pcb
    processSleep
    return .asleep intrval
  else
    restoreIntrs intrval
    return .returned syncSuccess

/-- A call through a handle, which is refused unless it names an entry in use. -/
def handled {n : Nat} (handle : Int) (inuse : KState → Fin n → Bool) (f : Fin n → KernelM Ret) :
    KernelM Ret := do
  match index n handle with
  | none => return .returned syncFail
  | some i => if inuse (← get) i then f i else return .returned syncFail

def semHandleWait (sem : Int) : KernelM Ret :=
  handled sem (fun K (s : SemPtr) => (K.sems s).inuse) semWait

def semHandleSignal (sem : Int) : KernelM Ret :=
  handled sem (fun K (s : SemPtr) => (K.sems s).inuse) semSignal

def lockHandleAcquire (lock : Int) : KernelM Ret :=
  handled lock (fun K (k : LockPtr) => (K.locks k).inuse) lockAcquire

def lockHandleRelease (lock : Int) : KernelM Ret :=
  handled lock (fun K (k : LockPtr) => (K.locks k).inuse) lockRelease

/-- The source compares with `MAX_SEMS` here, which is equal to `MAX_CONDS`. -/
def condHandleWait (cond : Int) : KernelM Ret :=
  handled cond (fun K (c : CondPtr) => (K.conds c).inuse) condWait

/-- The source compares with `MAX_SEMS` here, which is equal to `MAX_CONDS`. -/
def condHandleSignal (cond : Int) : KernelM Ret :=
  handled cond (fun K (c : CondPtr) => (K.conds c).inuse) condSignal

/-- `SynchModuleInit` -/
def synchModuleInit : KernelM Int := do
  modify fun K => { K with sems := fun s => { K.sems s with inuse := false }
                           locks := fun k => { K.locks k with inuse := false }
                           conds := fun c => { K.conds c with inuse := false } }
  return syncSuccess

end DlxOs.Kernel
