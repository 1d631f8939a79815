import DlxOs.Kernel.Sleepers

/-!
# The order in which the scheduler runs the processes

A process moves up in the run queue with every call of `ProcessSchedule`. The
exception is an exit: `ProcessSchedule` moves the head of the queue to its end
although the process that exits is no longer there, so that the next process
loses its turn if a third one is runnable.
-/

namespace DlxOs.Kernel

open Queue Monitors Transition

variable {m m' : Machine} {K : KState} {p R : PcbPtr} {e : KEvent} {c : Syscall} {r : Ret}
  {k : ℕ}

/-- How often a step calls `ProcessSchedule`. -/
def KEvent.schedules : KEvent → ℕ
  | .tick => 1
  | .exit _ => 1
  | .sleep _ => 1
  | .call _ _ (.asleep _) => 1
  | _ => 0

/-- In an exit the next process is not the last one of the run queue. -/
def KEvent.PassesOver (m : Machine) (R : PcbPtr) : KEvent → Prop
  | .exit p => ∃ q rest, m.kernel.sched.run = p :: R :: q :: rest
  | _ => False

/-- On a run from `m` to `m'`, process `R` becomes the current one by the `k`th call of
`ProcessSchedule`. -/
def Machine.HasTurn (m : Machine) (R : PcbPtr) (k : ℕ) (es : List KEvent) (m' : Machine) : Prop :=
  ∃ es₁ es₂ m₁, es = es₁ ++ es₂ ∧ kernelSystem.Run m es₁ m₁ ∧ kernelSystem.Run m₁ es₂ m' ∧
    (es₁.map KEvent.schedules).sum ≤ k ∧ m₁.kernel.currentPCB = some R

/-- A process after the head of the run queue is in it after the head has left. -/
theorem erase_head_get {α : Type*} [DecidableEq α] {xs : List α} {a x : α} {k : ℕ}
    (hh : xs.head? = some a) (hk : xs[k + 1]? = some x) : (xs.erase a)[k]? = some x := by
  cases xs with
  | nil => cases hh
  | cons b rest =>
      obtain rfl := Option.some.inj hh
      simpa using hk

/-- Those who join the run queue leave the others where they are. -/
theorem append_get {α : Type*} {xs ys : List α} {x : α} (hk : xs[k]? = some x) :
    (xs ++ ys)[k]? = some x := by
  rw [List.getElem?_append_left (List.getElem?_eq_some_iff.mp hk).1]
  exact hk

/-- A call that sleeps brings every process behind the caller forward. -/
theorem Performed.position {d : KCall} (h : Performed m.kernel p d r K)
    (hh : m.kernel.sched.run.head? = some p) (hk : m.kernel.sched.run[k + 1]? = some R) :
    ∃ j, K.sched.run[j]? = some R ∧ j + (KEvent.call p c r).schedules ≤ k + 1 := by
  have hw : (m.kernel.sched.wake (m.kernel.monitor.woken p d)).run[k + 1]? = some R := by
    rw [Sched.wake_run]
    exact append_get hk
  cases r with
  | returned v =>
      refine ⟨k + 1, ?_, le_refl _⟩
      rw [h.sched_returned]
      exact hw
  | asleep i =>
      refine ⟨k, ?_, le_refl _⟩
      rw [h.sched_asleep]
      refine erase_head_get ?_ hw
      rw [Sched.wake_run, List.head?_append, hh]
      rfl

/-- A process moves up with every call of `ProcessSchedule` that does not pass over it. -/
theorem Machine.Inv.position (h : m.Inv) (hs : m.Step e m') (he : ¬ e.PassesOver m R)
    (hk : m.kernel.sched.run[k + 1]? = some R) :
    ∃ j, m'.kernel.sched.run[j]? = some R ∧ j + e.schedules ≤ k + 1 := by
  have stays : ∀ {K : KState}, K.sched.run = m.kernel.sched.run →
      ∃ j, K.sched.run[j]? = some R ∧ j + 0 ≤ k + 1 := fun e => ⟨k + 1, by rw [e]; exact hk, le_refl _⟩
  cases hs with
  | @tick K hs =>
      obtain ⟨p, rest, hrun, -, hs', -⟩ := h.tick_moves hs
      refine ⟨k, ?_, le_refl _⟩
      change K.sched.run[k]? = some R
      rw [hs']
      rw [hrun] at hk
      exact append_get hk
  | @fork a r K hs =>
      obtain ⟨p, rest, -, -, ⟨-, hs', -⟩ | ⟨-, hs', -⟩⟩ := h.fork_moves hs
      · refine ⟨k + 1, ?_, le_refl _⟩
        change K.sched.run[k + 1]? = some R
        rw [hs']
        exact append_get hk
      · exact stays (K := K) (by rw [hs'])
  | @exit p K active hs =>
      obtain ⟨q, rest, hrun, -, hs', -⟩ := h.exit_moves active.1 hs
      rw [hrun] at hk
      cases k with
      | zero =>
          obtain rfl : q = R := by simpa using hk
          obtain rfl : rest = [] := by
            cases rest with
            | nil => rfl
            | cons x rest => exact absurd ⟨x, rest, hrun⟩ he
          refine ⟨0, ?_, le_refl _⟩
          change K.sched.run[0]? = some q
          rw [hs']
          rfl
      | succ k =>
          refine ⟨k, ?_, Nat.le_succ _⟩
          change K.sched.run[k]? = some R
          rw [hs']
          exact append_get (by simpa using hk)
  | @sleep p K active hs =>
      obtain ⟨q, rest, hrun, -, hs', -⟩ := h.sleep_moves active.1 hs
      refine ⟨k, ?_, le_refl _⟩
      change K.sched.run[k]? = some R
      rw [hs']
      exact erase_head_get (by rw [hrun]; rfl) hk
  | @wakeup p K running outside waiting hs =>
      obtain ⟨-, hs', -⟩ := h.wakeup_moves ((h.waiting_iff _).mp waiting) hs
      refine ⟨k + 1, ?_, le_refl _⟩
      change K.sched.run[k + 1]? = some R
      rw [hs']
      exact append_get hk
  | @call p c level r K active legal hs =>
      obtain ⟨h₀, -⟩ := h.setLevel level
      obtain ⟨hsv, hK⟩ := h.call_served active legal hs
      rw [hK]
      have hk₀ : (m.kernel.setIntrs level).sched.run[k + 1]? = some R := by
        rw [KState.setIntrs_sched]
        exact hk
      have hl : (m.kernel.setIntrs level).sched.run = m.kernel.sched.run := by
        rw [KState.setIntrs_sched]
      cases hsv with
      | call hd hu hp =>
          exact hp.position (m := m.setKernel (m.kernel.setIntrs level))
            ((h.serving active.1).setIntrs level).head hk₀
      | refused hc => exact stays hl
      | newSem hu hc => exact stays ((congrArg Sched.run (KState.sched_congr hc.list)).trans hl)
      | newLock hu hc => exact stays ((congrArg Sched.run (KState.sched_congr hc.list)).trans hl)
      | newCond hu hk hc => exact stays ((congrArg Sched.run (KState.sched_congr hc.list)).trans hl)
  | resume current pending hs =>
      obtain ⟨rfl, rfl⟩ := Prod.mk.inj (Except.ok.inj (show
        Except.ok (syncSuccess, m.kernel.setIntrs _) = _ from hs))
      exact stays (congrArg Sched.run (KState.setIntrs_sched ..))

/-- A process is run by the call of `ProcessSchedule` that its place in the run queue promises,
as long as no exit passes over it. -/
theorem turns_come (hm : kernelSystem.Reachable m) (hk : (m.kernel.list .runQueue)[k]? = some R)
    {es : List KEvent} (run : (kernelSystem.restrict fun m e => ¬ e.PassesOver m R).Run m es m')
    (calls : k ≤ (es.map KEvent.schedules).sum) : m.HasTurn R k es m' := by
  let left (m : Machine) (k : ℕ) : Prop :=
    kernelSystem.Reachable m ∧ m.kernel.sched.run[k]? = some R
  have step : ∀ m e m' k, left m (k + 1) → m.Step e m' ∧ ¬ e.PassesOver m R →
      ∃ j, left m' j ∧ j + e.schedules ≤ k + 1 := fun m e m' k h hs => by
    obtain ⟨j, hj, hle⟩ := (reachable_inv h.1).position hs.1 hs.2 h.2
    exact ⟨j, ⟨h.1.step hs.1, hj⟩, hle⟩
  obtain ⟨es₁, es₂, m₁, rfl, run₁, run₂, hsum, hr, hR⟩ := run.countdown step ⟨hm, hk⟩ calls
  refine ⟨es₁, es₂, m₁, rfl, run₁.unrestricted, run₂.unrestricted, hsum, ?_⟩
  rw [(reachable_inv hr).current, List.head?_eq_getElem?]
  exact hR

theorem turns_come_tick : ∃ (m m' : Machine) (p q : PcbPtr),
    m.kernel.list .runQueue = [p, q] ∧ m.HasTurn q 1 [.tick] m' := by
  obtain ⟨m, p, q, h, -⟩ := exists_scene
  obtain ⟨h', b', e, -⟩ := h.inv.table.processSchedule_does h.run false
  have ticks : m.Step .tick _ := .tick e
  exact ⟨m, _, p, q, h.run, turns_come h.reach.unrestricted
    (k := 1) (R := q) (by rw [show m.kernel.list .runQueue = [p, q] from h.run]; rfl)
    (.single ⟨ticks, id⟩) (le_refl 1)⟩

/-- An exit that passes over a process takes from it the turn that it was to have next. -/
theorem Machine.Inv.loses_turn (h : m.Inv) (hs : m.Step e m') (he : e.PassesOver m R) :
    (m.kernel.list .runQueue)[1]? = some R ∧ ¬ m.HasTurn R 1 [e] m' := by
  cases hs with
  | @exit p K active hs =>
      obtain ⟨q, rest, hrun⟩ := he
      obtain ⟨q', rest', hrun', -, -, hc⟩ := h.exit_moves active.1 hs
      obtain ⟨rfl, rfl⟩ : R = q' ∧ q :: rest = rest' := by simpa using hrun.symm.trans hrun'
      have hnd : (p :: R :: q :: rest).Nodup := hrun ▸ h.table.sparse.nodup .runQueue
      refine ⟨by rw [show m.kernel.list .runQueue = _ from hrun]; rfl, ?_⟩
      rintro ⟨es₁, es₂, m₁, he, run₁, run₂, -, hR⟩
      cases es₁ with
      | nil =>
          cases run₁
          obtain rfl : p = R := Option.some.inj (active.1.symm.trans hR)
          simp at hnd
      | cons e' es₁ =>
          obtain ⟨-, rfl, rfl⟩ : .exit p = e' ∧ es₁ = [] ∧ es₂ = [] := by simpa using he
          cases run₂
          obtain rfl : q = R := Option.some.inj (hc.symm.trans hR)
          simp at hnd
  | _ => exact False.elim he

/-- Two processes leave a PCB for a third one. -/
theorem Scene.free_ne_nil {q : PcbPtr} (h : Scene m p q) : m.kernel.sched.free ≠ [] := by
  intro hf
  obtain ⟨x, -, hx⟩ := Finset.exists_mem_notMem_of_card_lt_card
    (s := {p, q}) (t := (Finset.univ : Finset PcbPtr))
    ((Finset.card_le_two).trans_lt (by simp [processMaxProcs]))
  rcases h.inv.placed x with hm | hm | hm
  · rw [hf] at hm
    cases hm
  · rw [h.run] at hm
    exact hx (by simpa using hm)
  · obtain ⟨w, hw⟩ :=
      reachable_queued (h.reach.weaken fun _ _ => KEvent.Plain.not_raw) x hm
    rw [h.waiting w] at hw
    cases hw

/-- With three runnable processes the second one loses its turn when the first one exits. -/
theorem exit_passes_over : ¬ ∀ (m m' : Machine) (R : PcbPtr) (k : ℕ) (es : List KEvent),
    kernelSystem.Reachable m → (m.kernel.list .runQueue)[k]? = some R →
    kernelSystem.Run m es m' → k ≤ (es.map KEvent.schedules).sum → m.HasTurn R k es m' := by
  intro hall
  obtain ⟨m, p, q, h, -⟩ := exists_scene
  obtain ⟨x, rest, hfree⟩ := List.exists_cons_of_ne_nil h.free_ne_nil
  obtain ⟨K, forks, -, hs, -⟩ := h.inv.fork_steps hfree (a := ⟨1, 1, none⟩) (by simp) (by simp)
    (by simp)
  have hinv := (h.inv.step forks).1
  have hrun : (m.setKernel K).kernel.sched.run = [p, q, x] := by
    change K.sched.run = _
    rw [hs, h.run]
    rfl
  obtain ⟨K', e, -⟩ := hinv.exit_runs hrun
  have active : (m.setKernel K).Active p := ⟨by rw [hinv.current, hrun]; rfl, h.outside p⟩
  have exits : (m.setKernel K).Step (.exit p) ((m.setKernel K).setKernel K') := .exit active e
  obtain ⟨hq, hlost⟩ := hinv.loses_turn exits (R := q) ⟨x, [], hrun⟩
  exact hlost (hall _ _ q 1 _ (h.reach.unrestricted.step forks) hq (.single exits) (le_refl 1))

end DlxOs.Kernel
