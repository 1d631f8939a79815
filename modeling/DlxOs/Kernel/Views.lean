import DlxOs.Kernel.ScheduleSpec
import DlxOs.Library.Wakeups

/-!
# The monitor and the scheduler inside the kernel

`KState.monitor` is what the tables of `synch.c` mean, `KState.sched` what the
queues of `process.c` hold. Each action that the synchronization primitives are
made of is described here by its effect on the two.
-/

namespace DlxOs.Kernel

open Queue Monitors

/-- The lists of the scheduler. -/
@[ext] structure Sched where
  free : List PcbPtr
  run : List PcbPtr
  wait : List PcbPtr
  zombies : List PcbPtr

namespace Sched

/-- A process is woken up, if there is one to be woken up. -/
def wake (σ : Sched) : Option PcbPtr → Sched
  | none => σ
  | some q => { σ with run := σ.run ++ [q], wait := σ.wait.erase q }

/-- A running process goes to sleep. -/
def sleep (σ : Sched) (p : PcbPtr) : Sched :=
  { σ with run := σ.run.erase p, wait := σ.wait ++ [p] }

@[simp] theorem wake_none (σ : Sched) : σ.wake none = σ := rfl

@[simp] theorem wake_free (σ : Sched) (o : Option PcbPtr) : (σ.wake o).free = σ.free := by
  cases o <;> rfl

@[simp] theorem wake_zombies (σ : Sched) (o : Option PcbPtr) :
    (σ.wake o).zombies = σ.zombies := by
  cases o <;> rfl

theorem wake_run (σ : Sched) (o : Option PcbPtr) : (σ.wake o).run = σ.run ++ o.toList := by
  cases o <;> simp [wake]

theorem wake_wait (σ : Sched) (o : Option PcbPtr) : (σ.wake o).wait = without σ.wait o := by
  cases o <;> rfl

end Sched

namespace KState

def sched (K : KState) : Sched :=
  ⟨K.list .freepcbs, K.list .runQueue, K.list .waitQueue, K.list .zombieQueue⟩

def monitor (K : KState) : Monitor PcbPtr SemPtr LockPtr CondPtr where
  waiting w := K.list (.waiting w)
  count s := (K.sems s).count
  owner k := if (K.locks k).inuse then index processMaxProcs (K.locks k).pid else none
  bound c := (index maxLocks (K.conds c).lock).getD ⟨0, by decide⟩

variable (K : KState)

theorem sched_congr {K K' : KState} (h : K'.list = K.list) : K'.sched = K.sched := by
  simp only [sched, h]

@[simp] theorem setIntrs_sched (level : BitVec 4) : (K.setIntrs level).sched = K.sched :=
  sched_congr (by simp)

@[simp] theorem setIntrs_monitor (level : BitVec 4) : (K.setIntrs level).monitor = K.monitor := by
  simp only [monitor, setIntrs_list]
  rfl

@[simp] theorem setCurrent_sched (o : Option PcbPtr) : (K.setCurrent o).sched = K.sched :=
  sched_congr (by simp)

@[simp] theorem setCurrent_monitor (o : Option PcbPtr) : (K.setCurrent o).monitor = K.monitor := by
  simp only [monitor, setCurrent_list]
  rfl

@[simp] theorem setCount_inuse (s : SemPtr) (n : Int) : (K.setCount s n).inuse = K.inuse := by
  funext w
  cases w with
  | sem t => by_cases h : t = s <;> simp [inuse, setCount, h]
  | _ => rfl

@[simp] theorem setCount_list (s : SemPtr) (n : Int) : (K.setCount s n).list = K.list :=
  list_congr rfl (by simp)

@[simp] theorem setCount_sched (s : SemPtr) (n : Int) : (K.setCount s n).sched = K.sched :=
  sched_congr (by simp)

@[simp] theorem setCount_monitor (s : SemPtr) (n : Int) :
    (K.setCount s n).monitor = K.monitor.setCount s n := by
  have hc : (fun t => ((K.setCount s n).sems t).count) =
      Function.update (fun t => (K.sems t).count) s n := by
    funext t
    by_cases h : t = s <;> simp [setCount, h]
  simp only [monitor, Monitor.setCount, setCount_list, hc]
  rfl

@[simp] theorem setPid_inuse (k : LockPtr) (v : Int) : (K.setPid k v).inuse = K.inuse := by
  funext w
  cases w with
  | lock j => by_cases h : j = k <;> simp [inuse, setPid, h]
  | _ => rfl

@[simp] theorem setPid_list (k : LockPtr) (v : Int) : (K.setPid k v).list = K.list :=
  list_congr rfl (by simp)

@[simp] theorem setPid_sched (k : LockPtr) (v : Int) : (K.setPid k v).sched = K.sched :=
  sched_congr (by simp)

/-- More texts on the console. -/
def say (K : KState) (texts : List String) : KState := { K with console := K.console ++ texts }

@[simp] theorem say_inuse (texts : List String) : (K.say texts).inuse = K.inuse :=
  inuse_congr rfl rfl rfl

@[simp] theorem say_list (texts : List String) : (K.say texts).list = K.list :=
  list_congr rfl (by simp)

@[simp] theorem say_sched (texts : List String) : (K.say texts).sched = K.sched :=
  sched_congr (by simp)

@[simp] theorem say_monitor (texts : List String) : (K.say texts).monitor = K.monitor := by
  simp only [monitor, say_list]
  rfl

theorem setPid_monitor {k : LockPtr} (hk : (K.locks k).inuse = true) (v : Int) :
    (K.setPid k v).monitor = K.monitor.setOwner k (index processMaxProcs v) := by
  have ho : (fun j => if ((K.setPid k v).locks j).inuse then
        index processMaxProcs ((K.setPid k v).locks j).pid else none) =
      Function.update (fun j => if (K.locks j).inuse then
        index processMaxProcs (K.locks j).pid else none) k (index processMaxProcs v) := by
    funext j
    by_cases h : j = k
    · subst h
      simp [setPid, hk]
    · simp [setPid, h]
  simp only [monitor, Monitor.setOwner, setPid_list, ho]
  rfl

end KState

/-- The entry that the index of an entry names. -/
@[simp] theorem index_val {n : Nat} (i : Fin n) : index n i.val = some i := by
  simp [index]

@[simp] theorem index_neg_one (n : Nat) : index n (-1) = none := by
  simp [index]

theorem index_eq_some {n : Nat} {v : Int} {i : Fin n} : index n v = some i ↔ v = i.val := by
  rw [index]
  split_ifs with h
  · rw [Option.some.injEq, Fin.ext_iff, Fin.val_mk]
    omega
  · have := i.isLt
    simp only [false_iff]
    omega

/-- `f` returns `a` in state `K`; its effect is that of `X` besides the queues, the monitor is
then `m` and the scheduler `σ`. -/
def Does {α : Type} (f : KernelM α) (K : KState) (a : α) (X : KState)
    (m : Monitor PcbPtr SemPtr LockPtr CondPtr) (σ : Sched) : Prop :=
  ∃ h b, f.run K = .ok (a, X.remake h b) ∧ Table (X.remake h b) ∧ (X.remake h b).monitor = m ∧
    (X.remake h b).sched = σ

variable {K X : KState} {p q : PcbPtr} {w : WaitObject} {rest : List PcbPtr}

/-- The lists of a scheduler queue and those of the waiting queues. -/
theorem remake_monitor {h : Heap KQueue PcbPtr} {b : PcbPtr → PCB} {Q : KQueue → List PcbPtr}
    (hl : (K.remake h b).list = Q) :
    (K.remake h b).monitor = { K.monitor with waiting := fun w => Q (.waiting w) } := by
  simp only [KState.monitor, hl]
  rfl

theorem Table.enqueueCurrent_does (h : Table K) (hw : K.inuse w = true)
    (hc : K.currentPCB = some p) (hp : ∀ v, p ∉ K.monitor.waiting v) (t₁ t₂ : String) :
    Does (enqueueCurrent w t₁ t₂) K () K (K.monitor.enqueue w p) K.sched := by
  obtain ⟨h', e, hL, hl⟩ := enqueueCurrent_spec h.linked h.sparse hw hc t₁ t₂
  have hl' : (K.remake h' K.pcbs).list =
      Function.update K.list (.waiting w) (K.list (.waiting w) ++ [p]) := hl
  refine ⟨h', K.pcbs, e, ⟨hL, ?_, fun q st hq p' hp' => ?_⟩, ?_, ?_⟩
  · rw [hl']
    refine h.sparse.update ?_ fun p' hm => ?_
    · exact List.nodup_append.mpr ⟨h.sparse.nodup _, by simp, fun a ha b hb e =>
        hp w (by rw [List.mem_singleton.mp hb] at e; exact e ▸ ha)⟩
    · rcases List.mem_append.mp hm with hm | hm
      · exact .inl hm
      · refine .inr fun r hr => ?_
        cases r with
        | waiting v => exact List.mem_singleton.mp hm ▸ hp v
        | _ => cases hr
  · have hne : q ≠ .waiting w := fun e => by
      rw [e] at hq
      cases hq
    rw [hl', Function.update_of_ne hne] at hp'
    exact h.status q st hq p' hp'
  · rw [remake_monitor hl']
    simp only [Monitor.enqueue, Monitor.setWaiting, KState.monitor]
    congr 1
    funext v
    by_cases e : v = w
    · subst e
      simp
    · simp [e]
  · simp [KState.sched, hl']

theorem Table.isEmpty_waiting (h : Table K) (hw : K.inuse w = true) :
    (isEmpty (.waiting w)).run K = .ok (decide (K.monitor.waiting w = []), K) :=
  isEmpty_spec (q := .waiting w) h.linked hw

theorem Table.dequeueFirst_does (h : Table K) (hw : K.monitor.waiting w = p :: rest)
    (text : String) :
    Does (dequeueFirst w text) K p K (K.monitor.setWaiting w rest) K.sched := by
  have hlist : K.list (.waiting w) = p :: rest := hw
  obtain ⟨h', e, hL, hl⟩ := dequeueFirst_spec h.linked hlist text
  have hl' : (K.remake h' K.pcbs).list = Function.update K.list (.waiting w) rest := hl
  refine ⟨h', K.pcbs, e, ⟨hL, ?_, fun q st hq p' hp' => ?_⟩, ?_, ?_⟩
  · have hnd := h.sparse.nodup (.waiting w)
    rw [hlist] at hnd
    rw [hl']
    refine h.sparse.update (List.nodup_cons.mp hnd).2 fun p' hm => .inl ?_
    rw [hlist]
    exact List.mem_cons_of_mem _ hm
  · have hne : q ≠ .waiting w := fun e => by
      rw [e] at hq
      cases hq
    rw [hl', Function.update_of_ne hne] at hp'
    exact h.status q st hq p' hp'
  · rw [remake_monitor hl']
    simp only [Monitor.setWaiting, KState.monitor]
    congr 1
    funext v
    by_cases e : v = w
    · subst e
      simp
    · simp [e]
  · simp [KState.sched, hl']

theorem Table.processWakeup_does (h : Table K) (hp : p ∈ K.sched.wait) :
    Does (processWakeup p) K () K K.monitor (K.sched.wake (some p)) := by
  obtain ⟨h', b', e, hT, hl⟩ := processWakeup_spec h hp
  refine ⟨h', b', e, hT, ?_, ?_⟩
  · rw [remake_monitor hl]
    simp [KState.monitor]
  · simp [KState.sched, hl, Sched.wake]

theorem Table.processSuspend_does (h : Table K) (hp : p ∈ K.sched.run) :
    Does (processSuspend p) K () K K.monitor (K.sched.sleep p) := by
  obtain ⟨h', b', e, hT, hl⟩ := processSuspend_spec h hp
  refine ⟨h', b', e, hT, ?_, ?_⟩
  · rw [remake_monitor hl]
    simp [KState.monitor]
  · simp [KState.sched, hl, Sched.sleep]

theorem Table.processSchedule_does (h : Table K) (hrun : K.sched.run = p :: rest) (b : Bool) :
    Does (processSchedule b) K () (K.setCurrent (scheduled b p rest).head?) K.monitor
      { free := K.sched.free ++ K.sched.zombies, run := scheduled b p rest
        wait := K.sched.wait, zombies := [] } := by
  obtain ⟨h', b', e, hT, hl⟩ := processSchedule_spec h hrun b
  refine ⟨h', b', e, hT.congr rfl rfl (KState.inuse_congr rfl rfl rfl), ?_, ?_⟩
  · have hm := remake_monitor hl
    refine (KState.setCurrent_monitor (K.remake h' b') _).trans ?_
    rw [hm]
    simp [KState.monitor]
  · refine (KState.setCurrent_sched (K.remake h' b') _).trans ?_
    simp [KState.sched, hl]

/-- Going to sleep: another process becomes the current one. -/
theorem Table.processSleep_does (h : Table K) (hc : K.currentPCB = some p)
    (hrun : K.sched.run.erase p = q :: rest) (hp : p ∈ K.sched.run) (hz : K.sched.zombies = []) :
    Does processSleep K () (K.setCurrent (some q)) K.monitor (K.sched.sleep p) := by
  obtain ⟨h₁, b₁, e₁, hT₁, hm₁, hs₁⟩ := h.processSuspend_does hp
  have hrun₁ : (K.remake h₁ b₁).sched.run = q :: rest := by rw [hs₁]; exact hrun
  obtain ⟨h₂, b₂, e₂, hT₂, hm₂, hs₂⟩ := hT₁.processSchedule_does hrun₁ true
  refine ⟨h₂, b₂, ?_, hT₂, hm₂.trans hm₁, hs₂.trans ?_⟩
  · have ec : current.run K = .ok (p, K) := by simp [current, hc]; rfl
    rw [processSleep, run_bind_ok ec, run_bind_ok e₁]
    exact e₂
  · rw [hs₁]
    simp [Sched.sleep, scheduled, hz, hrun]

/-- The last runnable process cannot go to sleep: the simulation ends. -/
theorem Table.processSleep_halts (h : Table K) (hc : K.currentPCB = some p)
    (hrun : K.sched.run.erase p = []) (hp : p ∈ K.sched.run) :
    Ends processSleep K (lastTexts (K.sched.wait ++ [p])) := by
  obtain ⟨h₁, b₁, e₁, hT₁, hm₁, hs₁⟩ := h.processSuspend_does hp
  have hrun₁ : (K.remake h₁ b₁).list .runQueue = [] := by
    have := congrArg Sched.run hs₁
    exact this.trans hrun
  have hwait₁ : (K.remake h₁ b₁).list .waitQueue = K.sched.wait ++ [p] := congrArg Sched.wait hs₁
  have e₂ := processSchedule_halts hT₁ hrun₁ true
  rw [hwait₁] at e₂
  have ec : current.run K = .ok (p, K) := by simp [current, hc]; rfl
  rw [Ends, processSleep, run_bind_ok ec, run_bind_ok e₁]
  exact e₂

end DlxOs.Kernel
