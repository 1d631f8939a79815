import DlxOs.Kernel.ScheduleSpec

/-!
# Accesses to the tables

The kernel indexes the table of locks by the handle that a condition variable
keeps. No other operation of a condition variable goes outside a table, whatever
the state of the kernel.
-/

namespace DlxOs.Kernel

open Queue

variable {α β : Type} {K : KState}

/-- A computation that does not go outside a table, in any state. -/
def StaysInside (f : KernelM α) : Prop := ∀ K, f.run K ≠ .error .wildAccess

namespace StaysInside

variable {x : KernelM α} {f : α → KernelM β} {p : PcbPtr} {q : KQueue} {text text' : String}

theorem bind (hx : StaysInside x) (hf : ∀ a, StaysInside (f a)) : StaysInside (x >>= f) := by
  intro K e
  cases hrun : x.run K with
  | error e' =>
      have he : (x >>= f).run K = .error e' := by
        rw [StateT.run_bind, hrun]
        rfl
      rw [he] at e
      obtain rfl : e' = .wildAccess := Except.error.inj e
      exact hx K hrun
  | ok r =>
      have hr : (x >>= f).run K = (f r.1).run r.2 := by
        rw [StateT.run_bind, hrun]
        rfl
      rw [hr] at e
      exact hf r.1 r.2 e

theorem ret (a : α) : StaysInside (pure a : KernelM α) := fun _ e => by cases e

theorem read : StaysInside (get : KernelM KState) := fun _ e => by cases e

theorem write (K : KState) : StaysInside (set K : KernelM PUnit) := fun _ e => by cases e

theorem update (g : KState → KState) : StaysInside (modify g : KernelM PUnit) :=
  fun _ e => by cases e

theorem exits : StaysInside (exitsim : KernelM α) := fun _ e => by cases e

theorem null : StaysInside (throw .nullAccess : KernelM α) := fun _ e => by cases e

theorem diverges : StaysInside (throw .diverged : KernelM α) := fun _ e => by cases e

theorem fatal : StaysInside (Kernel.fatal text : KernelM α) := .bind (.update _) fun _ => .exits

theorem branch {c : Prop} [Decidable c] {y : KernelM α} (hx : StaysInside x)
    (hy : StaysInside y) : StaysInside (if c then x else y) := by
  split
  · exact hx
  · exact hy

theorem assert {g : String} {b : Bool} : StaysInside (Kernel.assert g b text) := by
  unfold Kernel.assert
  split
  · exact .ret ()
  · exact .update _

theorem setIntrs (level : BitVec 4) : StaysInside (Kernel.setIntrs level) :=
  .bind .read fun _ => .bind (.write _) fun _ => .ret _

theorem restoreIntrs (level : BitVec 4) : StaysInside (Kernel.restoreIntrs level) :=
  .bind (.setIntrs level) fun _ => .ret ()

/-! ### Queues -/

theorem checked {op : Heap KQueue PcbPtr → Int × Heap KQueue PcbPtr} :
    StaysInside (Kernel.checked op text) := by
  exact .bind .read fun K => .bind (.write _) fun _ => .branch .fatal (.ret ())

theorem removePcb : StaysInside (Kernel.removePcb p text) := by
  exact .bind .read fun K => .bind (.write _) fun _ => .branch .fatal (.ret ())

theorem allocLink : StaysInside (Kernel.allocLink p text) := by
  refine .bind .read fun K => .bind (.write _) fun _ => ?_
  split
  · exact .fatal
  · exact .ret _

theorem allocPcb : StaysInside (Kernel.allocPcb p text) := .bind .allocLink fun _ => .update _

theorem firstPcb : StaysInside (Kernel.firstPcb q) := by
  refine .bind .read fun K => ?_
  split
  · exact .null
  · split
    · exact .null
    · exact .ret _

theorem isEmpty : StaysInside (Kernel.isEmpty q) := .bind .read fun _ => .ret _

theorem current : StaysInside Kernel.current := by
  refine .bind .read fun K => ?_
  split
  · exact .null
  · exact .ret _

theorem getCurrentPid : StaysInside Kernel.getCurrentPid := .bind .current fun _ => .ret _

/-! ### Processes -/

theorem requeue {insert : Option LinkPtr → String → KernelM Unit} {noLink noInsert : String}
    (h : ∀ l, StaysInside (insert l noInsert)) :
    StaysInside (Kernel.requeue p insert text noLink noInsert) :=
  .bind .removePcb fun _ => .bind .allocPcb fun _ => .bind .read fun _ => h _

theorem processSuspend : StaysInside (Kernel.processSuspend p) :=
  .bind .read fun _ => .bind .assert fun _ => .bind (.update _) fun _ =>
    .requeue fun _ => .checked

theorem processWakeup : StaysInside (Kernel.processWakeup p) :=
  .bind .read fun _ => .bind .assert fun _ => .bind (.update _) fun _ =>
    .requeue fun _ => .checked

theorem processFreeResources : StaysInside (Kernel.processFreeResources p) :=
  .bind .allocPcb fun _ => .bind (.update _) fun _ => .bind .read fun _ =>
    .bind .checked fun _ => .update _

theorem printSleepers (ps : List PcbPtr) (i : Nat) : StaysInside (Kernel.printSleepers i ps) := by
  induction ps generalizing i with
  | nil => exact .ret ()
  | cons p rest ih => exact .bind (.update _) fun _ => .bind (.update _) fun _ => ih _

theorem freeZombies (fuel : Nat) : StaysInside (Kernel.freeZombies fuel) := by
  induction fuel with
  | zero => exact .diverges
  | succ fuel ih =>
      refine .bind .isEmpty fun b => .branch (.ret ()) ?_
      exact .bind .firstPcb fun _ => .bind .removePcb fun _ =>
        .bind .processFreeResources fun _ => ih

theorem processSchedule (b : Bool) : StaysInside (Kernel.processSchedule b) := by
  have chosen : StaysInside (do
      let first ← Kernel.firstPcb .runQueue
      modify fun K => { K with currentPCB := some first.2 }
      Kernel.freeZombies (processMaxProcs + 1) : KernelM Unit) :=
    .bind .firstPcb fun _ => .bind (.update _) fun _ => .freeZombies _
  have goes : StaysInside (do
      if !b then rotate
      let first ← Kernel.firstPcb .runQueue
      modify fun K => { K with currentPCB := some first.2 }
      Kernel.freeZombies (processMaxProcs + 1) : KernelM Unit) :=
    .branch (.bind (.update _) fun _ => chosen) chosen
  refine .bind .isEmpty fun empty => .branch (.bind .isEmpty fun waiting => ?_) goes
  apply StaysInside.branch
  · exact .bind (.update _) fun _ => .bind .read fun _ => .bind (.printSleepers _ _) fun _ =>
      .bind .exits fun _ => .bind (.update _) fun _ => .bind .exits fun _ => goes
  · exact .bind (.update _) fun _ => .bind .exits fun _ => goes

/-! ### Condition variables -/

theorem processSleep : StaysInside Kernel.processSleep :=
  .bind .current fun _ => .bind .processSuspend fun _ => .processSchedule true

theorem enqueueCurrent {w : WaitObject} : StaysInside (Kernel.enqueueCurrent w text text') :=
  .bind .current fun _ => .bind .allocLink fun _ => .checked

theorem dequeueFirst {w : WaitObject} : StaysInside (Kernel.dequeueFirst w text) :=
  .bind .firstPcb fun _ => .bind .checked fun _ => .ret _

theorem passLock (k : LockPtr) : StaysInside (Kernel.passLock k) :=
  .bind (.update _) fun _ => .bind .isEmpty fun _ =>
    .branch (.bind .dequeueFirst fun _ => .bind (.update _) fun _ => .processWakeup) (.ret ())

/-- What a process gets that does not own the lock. -/
theorem refuses (level : BitVec 4) : StaysInside (do
    printf "CondWait: Proc can't wait, doesn't own lock!\n"
    Kernel.restoreIntrs level
    return .returned syncFail : KernelM Ret) :=
  .bind (.update _) fun _ => .bind (.restoreIntrs level) fun _ => .ret _

end StaysInside

/-- A condition variable whose lock is in the table. -/
theorem lockAt_inside {c : CondPtr} {k : LockPtr} (h : index maxLocks (K.conds c).lock = some k) :
    (lockAt ((K.setIntrs 0xf).conds c).lock).run (K.setIntrs 0xf) = .ok (k, K.setIntrs 0xf) := by
  have hlock : index maxLocks ((K.setIntrs 0xf).conds c).lock = some k := h
  rw [lockAt, hlock]
  rfl

theorem condWait_inside {c : CondPtr} {k : LockPtr}
    (h : index maxLocks (K.conds c).lock = some k) : (condWait c).run K ≠ .error .wildAccess := by
  rw [condWait, run_bind_ok disableIntrs_run, get_bind_run, run_bind_ok (lockAt_inside h)]
  have waits : StaysInside (do
      enqueueCurrent (.cond c)
        "FATAL ERROR: Could not allocate link for wait queue in CondWait!\n"
        "FATAL ERROR: Could not insert link for wait queue in CondWait!\n"
      passLock k
      processSleep
      return .asleep K.intrs : KernelM Ret) :=
    .bind .enqueueCurrent fun _ => .bind (.passLock k) fun _ => .bind .processSleep fun _ => .ret _
  exact StaysInside.bind .getCurrentPid
    (fun pid => .bind .read fun _ => .branch (.refuses _) waits) _

theorem condSignal_inside {c : CondPtr} {k : LockPtr}
    (h : index maxLocks (K.conds c).lock = some k) :
    (condSignal c).run K ≠ .error .wildAccess := by
  rw [condSignal, run_bind_ok disableIntrs_run, get_bind_run, run_bind_ok (lockAt_inside h)]
  have hands : StaysInside (do
      let pcb ← dequeueFirst (.cond c)
        "FATAL ERROR: Could not remove link from conditional queue in CondSignal!\n"
      modify fun K => K.setPid k pcb.val
      enqueueCurrent (.lock k)
        "FATAL ERROR: Could not allocate link for conditional lock queue in CondSignal!\n"
        "FATAL ERROR: Could not insert link for conditional lock wait queue in CondSignal!\n"
      processWakeup pcb
      processSleep
      return .asleep K.intrs : KernelM Ret) :=
    .bind .dequeueFirst fun _ => .bind (.update _) fun _ => .bind .enqueueCurrent fun _ =>
      .bind .processWakeup fun _ => .bind .processSleep fun _ => .ret _
  have goes : StaysInside (do
      restoreIntrs K.intrs
      return .returned syncSuccess : KernelM Ret) := .bind (.restoreIntrs _) fun _ => .ret _
  exact StaysInside.bind .getCurrentPid (fun pid => .bind .read fun _ =>
    .branch (.refuses _) (.bind .isEmpty fun _ => .branch hands goes)) _

end DlxOs.Kernel
