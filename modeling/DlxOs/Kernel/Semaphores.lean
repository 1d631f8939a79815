import DlxOs.Kernel.Progress
import DlxOs.Library.Histories

/-!
# Semaphores of the kernel

The waits on a semaphore that have been granted are the first ones in the order
of the calls, and their number is exactly what the initial count and the signals
allow. The callers of the other waits are the waiting queue.
-/

namespace DlxOs.Kernel

open Queue Monitors Transition

variable {m : Machine} {s : SemPtr} {p : PcbPtr} {o : SemLog PcbPtr}

/-- What happened on semaphore `s` so far. -/
def semLogNow (s : SemPtr) (o : SemLog PcbPtr) (m : Machine) (e : KEvent) (_ : Machine) :
    SemLog PcbPtr :=
  semLogAfter s o (m.meaning e)

/-- The kernel with the log of semaphore `s`. -/
def semaphoreSystem (s : SemPtr) : System (Machine × SemLog PcbPtr) KEvent :=
  kernelSystem.observe ⟨0, 0, []⟩ (semLogNow s)

namespace Machine

/-- The wait has returned, or its process has been made runnable. -/
def granted (m : Machine) (w : PcbPtr × Bool) : Bool :=
  w.2 || decide (m.kernel.statusOf w.1 = processStatusRunnable)

/-- The number of waits granted so far. -/
def grants (m : Machine) (o : SemLog PcbPtr) : Nat := (o.waits.filter m.granted).length

/-- The waits on semaphore `s` are granted in order, as many as the count and the signals allow. -/
structure Accounts (m : Machine) (s : SemPtr) (o : SemLog PcbPtr) : Prop where
  number : (m.grants o : Int) = min (o.waits.length : Int) (max 0 (o.start + o.signals))
  first : o.waits.filter m.granted = o.waits.take (m.grants o)
  count : (m.kernel.sems s).count = o.start + o.signals - m.grants o
  queue : m.kernel.list (.waiting (.sem s)) = (o.waits.drop (m.grants o)).map Prod.fst

namespace Inv

/-- A process that is awake inside a call is runnable. -/
theorem runnable (h : m.Inv) (hp : m.pending p ≠ none) (ha : m.view.Awake p) :
    m.kernel.statusOf p = processStatusRunnable := by
  obtain ⟨e, he⟩ := Option.ne_none_iff_exists'.mp hp
  obtain ⟨-, hr | ⟨w, hw⟩⟩ := h.inside p e he
  · exact h.table.status .runQueue _ rfl p hr
  · exact absurd hw (ha w)

/-- A process in a waiting queue is not runnable. -/
theorem not_runnable (h : m.Inv) {w : WaitObject} (hw : p ∈ m.kernel.monitor.waiting w) :
    m.kernel.statusOf p ≠ processStatusRunnable := by
  rw [(h.waiting_iff p).mpr (h.queued w p hw)]
  decide

/-- The granted waits are those that the log says are granted. -/
theorem filter_granted (h : m.Inv) {old : List (PcbPtr × Bool)} (f : o.Fits s m.view old) :
    o.waits.filter m.granted = old := by
  rw [f.waits, List.filter_append]
  have hold : old.filter m.granted = old := by
    refine List.filter_eq_self.mpr fun w hw => ?_
    rcases f.granted w hw with c | ⟨hp, ha⟩
    · simp [granted, c]
    · have hpend : m.pending w.1 ≠ none := fun c => by simp [Machine.view, c] at hp
      simp [granted, h.runnable hpend ha]
  have hqueue : ((m.view.mon.waiting (.sem s)).map fun p => (p, false)).filter m.granted = [] := by
    refine List.filter_eq_nil_iff.mpr fun w hw => ?_
    obtain ⟨p, hp, rfl⟩ := List.mem_map.mp hw
    simp [granted, h.not_runnable hp]
  rw [hold, hqueue, List.append_nil]

/-- The log of the session is the account of the kernel. -/
theorem accounts (h : m.Inv) {old : List (PcbPtr × Bool)} (f : o.Fits s m.view old) :
    m.Accounts s o := by
  have hg : m.grants o = old.length := by rw [grants, h.filter_granted f]
  refine ⟨?_, ?_, ?_, ?_⟩
  · rw [hg]
    exact f.length_old h.sound
  · rw [h.filter_granted f, hg, f.waits, List.take_left]
  · rw [hg]
    exact f.count
  · rw [hg, f.waits, List.drop_left, List.map_map]
    exact (List.map_id _).symm

end Inv

end Machine

/-- Every step of the kernel keeps the log of a semaphore. -/
theorem semLogNow_fits {x : Machine × SemLog PcbPtr} (h : (semaphoreSystem s).Reachable x) :
    ∃ old, x.2.Fits s x.1.view old := by
  induction h with
  | init h =>
      obtain ⟨hb, hblank⟩ := Machine.Init.blank h.1
      rw [h.2]
      refine ⟨[], ?_, by simp, ?_, fun _ => rfl, fun _ => ⟨rfl, rfl⟩⟩
      · rw [hblank.waiting]
        rfl
      · simpa [Machine.view, KState.monitor] using hb.counts s
  | step tail hs ih =>
      obtain ⟨old, f⟩ := ih
      have hinv := reachable_inv tail.unobserved
      rw [hs.2]
      exact semLogAfter_fits f hinv.sound (hinv.step hs.1).2

/-- At every point of a run, the account of a semaphore is exact. -/
theorem semaphore_accounts (h : (semaphoreSystem s).Reachable (m, o)) : m.Accounts s o := by
  obtain ⟨old, f⟩ := semLogNow_fits h
  exact (reachable_inv h.unobserved).accounts f

theorem semaphore_accounts_waiting : ∃ (m : Machine) (s : SemPtr) (o : SemLog PcbPtr) (p : PcbPtr),
    (p, false) ∈ o.waits ∧ p ∈ m.kernel.list (.waiting (.sem s)) ∧ m.Accounts s o := by
  obtain ⟨m, p, q, h, hunused⟩ := exists_scene
  obtain ⟨s, K, hs, hc, hm⟩ :=
    h.inv.semCreate_steps h.active (-1) (s := ⟨0, by decide⟩) (hunused _)
  have h₁ := h.setKernel hs trivial (congrArg Sched.run (KState.sched_congr hc.list))
  have hcall : K.monitor.call p (.semWait s) = (.blocked, K.monitor.enqueue (.sem s) p) := by
    simp [Monitor.call, hm]
  have hu : K.inuse (.sem s) = true := by simp [hc.inuse]
  obtain ⟨i, K', hs', hp⟩ := h₁.inv.blocked_steps h₁.active trivial
    (c := .semWait s.val) (d := .semWait s) (by simp [Syscall.meaning]) hu
    (congrArg Prod.fst hcall) (by simp [Monitor.woken, h₁.run])
  obtain ⟨o, hr⟩ := h₁.reach.unrestricted.observed ⟨0, 0, []⟩ (semLogNow s)
  let m' := (m.setKernel K).after p (.semWait s.val) (.asleep i) K'
  have hr' : (semaphoreSystem s).Reachable
      (m', semLogNow s o (m.setKernel K) (.call p (.semWait s.val) (.asleep i)) m') :=
    hr.step ⟨hs', rfl⟩
  have hu' : (m.setKernel K).kernel.inuse (.sem s) = true := hu
  refine ⟨m', s, _, p, ?_, ?_, semaphore_accounts hr'⟩
  · simp [semLogNow, Machine.meaning, Syscall.meaning, Call.target, hu', Ret.outcome, semLogAfter]
  · change p ∈ K'.monitor.waiting (.sem s)
    rw [hp.monitor_eq hcall]
    simp

end DlxOs.Kernel
