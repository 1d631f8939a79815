import DlxOs.Kernel.Handles

/-!
# How the kernel goes on, and how it ends

Whatever a process asks of the kernel in a reachable state is done. The only
exceptions are a fork without a free PCB or a page, and an exit or a sleep of
the last runnable process, which end the simulation with the notices meant for
it, and the creation of a condition variable with a wild handle.

## Main results

* `kernel_goes_on`: the steps and the ends of a reachable state.
-/

namespace DlxOs.Kernel

open Queue Monitors Transition

variable {m : Machine} {K : KState} {p : PcbPtr} {c : Syscall}

/-- Only the creation of a condition variable follows a wild handle. -/
theorem Serving.wild (h : Serving K p) (legal : c.Legal K) (e : c.run.run K = .error .wildAccess) :
    ∃ handle, c = .condCreate handle ∧ ¬ (0 ≤ handle ∧ handle < maxLocks) := by
  cases c with
  | semCreate n =>
      obtain ⟨v, K', e', -⟩ := semCreate_spec h.table n
      rw [Syscall.run, run_bind_ok e'] at e
      cases e
  | lockCreate =>
      obtain ⟨v, K', e', -⟩ := lockCreate_spec h.table
      rw [Syscall.run, run_bind_ok e'] at e
      cases e
  | lockTransfer k pcb =>
      rcases h.lockTransfer_calls legal.1 pcb with ⟨e', -⟩ | ⟨r, K', e', -⟩
      · exact absurd e e'.not_wild
      · cases e.symm.trans e'
  | condCreate handle =>
      refine ⟨handle, rfl, fun inside => ?_⟩
      exact Entry.run_inside (f := .condCreate) h (fun _ => inside) e
  | semWait handle => exact absurd e (Entry.run_inside (f := .semHandleWait) h (by simp))
  | semSignal handle => exact absurd e (Entry.run_inside (f := .semHandleSignal) h (by simp))
  | lockAcquire handle => exact absurd e (Entry.run_inside (f := .lockHandleAcquire) h (by simp))
  | lockRelease handle => exact absurd e (Entry.run_inside (f := .lockHandleRelease) h (by simp))
  | condWait handle => exact absurd e (Entry.run_inside (f := .condHandleWait) h (by simp))
  | condSignal handle => exact absurd e (Entry.run_inside (f := .condHandleSignal) h (by simp))

/-- What can come of the current process, and what ends the simulation. -/
structure Machine.GoesOn (m : Machine) (p : PcbPtr) : Prop where
  tick : ∃ m', m.Step .tick m'
  resume : ∀ c i, m.pending p = some (c, i) → ∃ r m', m.Step (.resume p c r) m'
  wakeup : ∀ q, m.pending q = none → m.kernel.statusOf q = processStatusWaiting →
    ∃ m', m.Step (.wakeup q) m'
  fork : ∀ a, match a.refusal m.kernel.sched.free with
    | some text => Ends (processFork a) m.kernel [text]
    | none => ∃ r m', m.Step (.fork a r) m'
  exit : m.pending p = none →
    if m.kernel.sched.run = [p] then Ends trapExit m.kernel (lastTexts m.kernel.sched.wait)
    else ∃ m', m.Step (.exit p) m'
  sleep : m.pending p = none →
    if m.kernel.sched.run = [p] then
      Ends processSleep m.kernel (lastTexts (m.kernel.sched.wait ++ [p]))
    else ∃ m', m.Step (.sleep p) m'
  last : m.pending p = none → ∀ (c : Syscall) level, c.SleepsLast m.kernel p →
    Ends c.run (m.kernel.setIntrs level) (lastTexts (m.kernel.sched.wait ++ [p]))
  call : m.pending p = none → ∀ (c : Syscall) level, c.Legal m.kernel →
    (∀ handle : Int, c = .condCreate handle → 0 ≤ handle ∧ handle < maxLocks) →
    ¬ c.SleepsLast m.kernel p →
    ∃ r K, c.run.run (m.kernel.setIntrs level) = .ok (r, K) ∧
      m.Step (.call p c r) (m.after p c r K)

namespace Syscall

/-- The interrupt level is of no account. -/
theorem sleepsLast_setIntrs (level : BitVec 4) :
    c.SleepsLast (K.setIntrs level) p ↔ c.SleepsLast K p := by
  unfold SleepsLast
  have last (d : KCall) : LastSleeps (K.setIntrs level) p d ↔ LastSleeps K p d := by
    simp only [lastSleeps_iff, KState.setIntrs_monitor, KState.setIntrs_sched]
  simp only [last, KState.setIntrs_inuse]

/-- When the last process that can run goes to sleep, the simulation ends. -/
theorem SleepsLast.ends (hl : c.SleepsLast K p) (h : Serving K p) :
    Ends c.run K (lastTexts (K.sched.wait ++ [p])) := by
  obtain ⟨d, hd, hu, hlast⟩ := hl
  rcases run_calls h hd hu with ⟨ends, -⟩ | ⟨r, K', -, hp⟩
  · exact ends
  · have blocked : r.outcome = .blocked := by
      have hcall := congrArg Prod.fst hp.call
      exact hcall.symm.trans hlast.blocked
    have empty : K'.sched.run = [] := by
      rw [hp.sched, if_pos blocked, hlast.wakes]
      simp [Sched.sleep, hlast.alone]
    have := hp.current
    rw [empty] at this
    exact absurd this hp.running

end Syscall

/-- In every reachable state the current process gets on with whatever it does. Only a fork without
a PCB or a page, and the last runnable process by its exit or its sleep, end the simulation. -/
theorem kernel_goes_on (h : kernelSystem.Reachable m) (current : m.kernel.currentPCB = some p) :
    m.GoesOn p := by
  have hinv := reachable_inv h
  obtain ⟨others, hrun⟩ := hinv.run_eq current
  have hp : p ∈ m.kernel.sched.run := by simp [hrun]
  refine ⟨?_, fun c i inside => ?_, fun q outside waiting => ?_, fun a => ?_, fun outside => ?_,
    fun outside => ?_, fun outside c level last => ?_,
    fun outside c level legal handles awake => ?_⟩
  · obtain ⟨h', b', e, -⟩ := hinv.table.processSchedule_does hrun false
    exact ⟨_, .tick e⟩
  · exact ⟨_, _, .resume current inside rfl⟩
  · obtain ⟨h', b', e, -⟩ := hinv.table.processWakeup_does ((hinv.waiting_iff q).mp waiting)
    exact ⟨_, .wakeup (by simp [current]) outside waiting e⟩
  · obtain ⟨t, refused, e⟩ | ⟨granted, r, K, e, -⟩ := processFork_spec hinv.table a
    · rw [show a.refusal m.kernel.sched.free = some t from refused]
      exact e
    · rw [show a.refusal m.kernel.sched.free = none from granted]
      exact ⟨r, _, .fork e⟩
  · cases others with
    | nil => exact (if_pos hrun).mpr (hinv.exit_halts current hrun)
    | cons q rest =>
        obtain ⟨K, e, -⟩ := hinv.exit_runs hrun
        exact (if_neg (by simp [hrun])).mpr ⟨_, .exit ⟨current, outside⟩ e⟩
  · cases others with
    | nil =>
        exact (if_pos hrun).mpr (hinv.table.processSleep_halts current (by simp [hrun]) hp)
    | cons q rest =>
        obtain ⟨h', b', e, -⟩ := hinv.table.processSleep_does current
          (show m.kernel.sched.run.erase p = q :: rest by simp [hrun]) hp hinv.zombies
        exact (if_neg (by simp [hrun])).mpr ⟨_, .sleep ⟨current, outside⟩ e⟩
  · have serving := (hinv.serving current).setIntrs level
    have ends := ((Syscall.sleepsLast_setIntrs level).mpr last).ends serving
    rwa [KState.setIntrs_sched] at ends
  · have legal' : c.Legal (m.kernel.setIntrs level) := by cases c <;> exact legal
    have serving := (hinv.serving current).setIntrs level
    rcases serves serving legal' with e | ⟨-, last⟩ | ⟨r, K, e, -⟩
    · obtain ⟨handle, rfl, outside⟩ := serving.wild legal' e
      exact absurd (handles handle rfl) outside
    · exact absurd ((Syscall.sleepsLast_setIntrs level).mp last) awake
    · exact ⟨r, K, e, .call ⟨current, outside⟩ legal e⟩

/-- Two processes that have been forked go on. -/
theorem kernel_goes_on_scene : ∃ (m : Machine) (p q : PcbPtr),
    m.kernel.sched.run = [p, q] ∧ m.kernel.currentPCB = some p ∧ m.GoesOn p := by
  obtain ⟨m, p, q, h, -⟩ := exists_scene
  exact ⟨m, p, q, h.run, h.active.1, kernel_goes_on h.reach.unrestricted h.active.1⟩

end DlxOs.Kernel
