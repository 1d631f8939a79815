import DlxOs.Kernel.State
import DlxOs.Queue.Operations

/-!
# Processes and their scheduling, as in `os/process.c`

Taking a PCB off its queue and putting it on another one with a new link is one
definition, `requeue`; the routines that do so differ in the queue, the texts
and the status.
-/

namespace DlxOs.Kernel

open Queue Monitors

def processSetStatus (p : PcbPtr) (status : BitVec 32) : KernelM Unit :=
  modify fun K => K.setFlags p (((K.pcbs p).flags &&& ~~~processStatusMask) ||| status)

/-- `pcb->l = AQueueAllocLink (pcb)`, then the new link goes to a queue. -/
def linkPcb (p : PcbPtr) (insert : Option LinkPtr → String → KernelM Unit)
    (noLink noInsert : String) : KernelM Unit := do
  allocPcb p noLink
  insert ((← get).pcbs p).l noInsert

/-- The link of a PCB is freed, and a new one goes to a queue. -/
def requeue (p : PcbPtr) (insert : Option LinkPtr → String → KernelM Unit)
    (noRemove noLink noInsert : String) : KernelM Unit := do
  removePcb p noRemove
  linkPcb p insert noLink noInsert

def processSuspend (suspend : PcbPtr) : KernelM Unit := do
  assert "ProcessSuspend" (((← get).pcbs suspend).flags &&& processStatusRunnable != 0)
    "Trying to suspend a non-running process!\n"
  processSetStatus suspend processStatusWaiting
  requeue suspend (insertLast .waitQueue)
    "FATAL ERROR: could not remove process from run Queue in ProcessSuspend!\n"
    "FATAL ERROR: could not get Queue Link in ProcessSuspend!\n"
    "FATAL ERROR: could not insert suspend PCB into waitQueue!\n"

def processWakeup (wakeup : PcbPtr) : KernelM Unit := do
  assert "ProcessWakeup" (((← get).pcbs wakeup).flags &&& processStatusWaiting != 0)
    "Trying to wake up a non-sleeping process!\n"
  processSetStatus wakeup processStatusRunnable
  requeue wakeup (insertLast .runQueue)
    "FATAL ERROR: could not remove wakeup PCB from waitQueue in ProcessWakeup!\n"
    "FATAL ERROR: could not get link for wakeup PCB in ProcessWakeup!\n"
    "FATAL ERROR: could not insert link into runQueue in ProcessWakeup!\n"

def processDestroy (pcb : PcbPtr) : KernelM Unit := do
  processSetStatus pcb processStatusZombie
  requeue pcb (insertFirst .zombieQueue)
    "FATAL ERROR: could not remove link from queue in ProcessDestroy!\n"
    "FATAL ERROR: could not get link for zombie PCB in ProcessDestroy!\n"
    "FATAL ERROR: could not insert link into runQueue in ProcessWakeup!\n"

/-- The release of the memory pages lies between the last two actions. -/
def processFreeResources (pcb : PcbPtr) : KernelM Unit := do
  allocPcb pcb "FATAL ERROR: could not get Queue Link in ProcessFreeResources!\n"
  modify fun K => K.setFlags pcb processStatusFree
  insertLast .freepcbs ((← get).pcbs pcb).l
    "FATAL ERROR: could not insert PCB link into freepcbs queue in ProcessFreeResources!\n"
  processSetStatus pcb processStatusFree

/-- One line for each sleeping process. -/
def printSleepers : Nat → List PcbPtr → KernelM Unit
  | _, [] => pure ()
  | i, p :: rest => do
    printf s!"Sleeping process {i}: "
    printf s!"PID = {p.val}\n"
    printSleepers (i + 1) rest

/-- Zombies are freed until none is left; `fuel` bounds the rounds. -/
def freeZombies : Nat → KernelM Unit
  | 0 => throw .diverged
  | fuel + 1 => do
    if ← isEmpty .zombieQueue then pure () else
      let (_, pcb) ← firstPcb .zombieQueue
      removePcb pcb
        "FATAL ERROR: could not remove zombie process from zombieQueue in ProcessSchedule!\n"
      processFreeResources pcb
      freeZombies fuel

/-- The first of the run queue becomes the last; the result of `AQueueMoveAfter` is not looked at. -/
def rotate : KernelM Unit :=
  modify fun K => K.setHeap (aQueueMoveAfter K.heap (some (.named .runQueue))
    (aQueueLast K.heap (.named .runQueue)) (aQueueFirst K.heap (.named .runQueue))).2

def processSchedule (suspendFlag : Bool) : KernelM Unit := do
  if ← isEmpty .runQueue then
    if !(← isEmpty .waitQueue) then
      printf "FATAL ERROR: no runnable processes, but there are sleeping processes waiting!\n"
      let K ← get
      printSleepers 0 ((K.heap.items (.named .waitQueue)).filterMap K.heap.object)
      exitsim
    printf "No runnable processes - exiting!\n"
    exitsim
  if !suspendFlag then rotate
  let (_, pcb) ← firstPcb .runQueue
  modify fun K => { K with currentPCB := some pcb }
  freeZombies (processMaxProcs + 1)

/-- What the memory allocator and the file system answer during a fork. -/
structure ForkAnswers where
  userPage : Nat
  stackPage : Nat
  /-- The result of `ProcessGetCodeInfo`, or `none` for a system process. -/
  fd : Option Int

/-- The new PCB goes to the run queue, and becomes the current one if there is none. -/
def forkRun (pcb : PcbPtr) (type : BitVec 32) : KernelM Int := do
  modify fun K => K.setFlags pcb ((K.pcbs pcb).flags ||| type)
  let intrs ← disableIntrs
  linkPcb pcb (insertLast .runQueue)
    "FATAL ERROR: could not get link for forked PCB in ProcessFork!\n"
    "FATAL ERROR: could not insert link into runQueue in ProcessFork!\n"
  restoreIntrs intrs
  if (← get).currentPCB = none then modify fun K => { K with currentPCB := some pcb }
  return pcb.val

/-- The part of `ProcessFork` after a PCB is taken: a process whose file cannot be used is
given back, with result `-1`. -/
def forkLoad (answers : ForkAnswers) (pcb : PcbPtr) : KernelM Int := do
  if answers.userPage = 0 then fatal "aFATAL: couldn't allocate memory - no free pages!\n"
  if answers.stackPage = 0 then fatal "bFATAL: couldn't allocate system stack - no free pages!\n"
  match answers.fd with
  | none => forkRun pcb processTypeSystem
  | some fd =>
    if fd < 0 then
      processFreeResources pcb
      return -1
    else forkRun pcb processTypeUser

/-- The start of `ProcessFork`, where a PCB is taken. -/
def takePcb : KernelM PcbPtr := do
  let intrs ← disableIntrs
  if ← isEmpty .freepcbs then fatal "FATAL error: no free processes!\n"
  let (_, pcb) ← firstPcb .freepcbs
  removePcb pcb "FATAL ERROR: could not remove link from freepcbsQueue in ProcessFork!\n"
  processSetStatus pcb processStatusRunnable
  restoreIntrs intrs
  return pcb

def processFork (answers : ForkAnswers) : KernelM Int := do
  let pcb ← takePcb
  forkLoad answers pcb

/-- One round of the loop of `ProcessModuleInit`. -/
def initPcb (p : PcbPtr) : KernelM Unit := do
  allocPcb p "FATAL ERROR: could not allocate link in ProcessModuleInit!\n"
  modify fun K => K.setFlags p processStatusFree
  insertFirst .freepcbs ((← get).pcbs p).l
    "FATAL ERROR: could not insert PCB link into queue in ProcessModuleInit!\n"

/-- `AQueueInit` of a queue of this module, its result not looked at. -/
def initOwnQueue (q : KQueue) : KernelM Unit :=
  modify fun K => K.setHeap (aQueueInit K.heap (some (.named q))).2

def processModuleInit : KernelM Unit := do
  initOwnQueue .freepcbs
  initOwnQueue .runQueue
  initOwnQueue .waitQueue
  initOwnQueue .zombieQueue
  (List.finRange processMaxProcs).forM initPcb
  modify fun K => { K with currentPCB := none }

end DlxOs.Kernel
