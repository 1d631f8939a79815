import DlxOs.Kernel.Machine

/-!
# The steps of the scheduler

`Scheduled` says that every PCB has its place and that the running process is
the first runnable one. A timer interrupt, a fork, an exit, a sleep and a wakeup
only move processes between lists: one lemma each says which, and these lemmas
are all that is known of them afterwards.
-/

namespace DlxOs.Kernel

open Queue Monitors Transition

/-- Only the lists of the scheduler and the current process differ. -/
structure Moves (K K' : KState) : Prop where
  table : Table K'
  monitor : K'.monitor = K.monitor
  sems : K'.sems = K.sems
  locks : K'.locks = K.locks
  conds : K'.conds = K.conds
  console : K'.console = K.console

/-- Every PCB has its place, and the running process is the first runnable one. -/
structure Scheduled (K : KState) : Prop where
  table : Table K
  zombies : K.sched.zombies = []
  placed : ∀ p, p ∈ K.sched.free ∨ p ∈ K.sched.run ∨ p ∈ K.sched.wait
  current : K.currentPCB = K.sched.run.head?

variable {K K' : KState} {p q : PcbPtr}

theorem Moves.inuse (h : Moves K K') : K'.inuse = K.inuse :=
  KState.inuse_congr h.sems h.locks h.conds

/-- No process is in two of the lists of the scheduler. -/
theorem Table.run_wait (h : Table K) (hr : p ∈ K.sched.run) : p ∉ K.sched.wait := fun hw => by
  cases h.sparse.apart .runQueue .waitQueue p rfl hr hw

namespace Scheduled

/-- The current process is the head of the run queue. -/
theorem run_eq (h : Scheduled K) (hcur : K.currentPCB = some p) :
    ∃ rest, K.sched.run = p :: rest := by
  have hh := h.current
  rw [hcur] at hh
  cases hrun : K.sched.run with
  | nil =>
      rw [hrun] at hh
      cases hh
  | cons a rest =>
      rw [hrun] at hh
      exact ⟨rest, by rw [Option.some.inj hh]⟩

/-- The status of a process names its queue. -/
theorem waiting_iff (h : Scheduled K) (p : PcbPtr) :
    K.statusOf p = processStatusWaiting ↔ p ∈ K.sched.wait := by
  refine ⟨fun e => ?_, fun hm => h.table.status .waitQueue _ rfl p hm⟩
  rcases h.placed p with hp | hp | hp
  · rw [h.table.status .freepcbs _ rfl p hp] at e
    exact absurd e (by decide)
  · rw [h.table.status .runQueue _ rfl p hp] at e
    exact absurd e (by decide)
  · exact hp

/-! ### Which processes move -/

/-- The first runnable process goes to the end of the run queue. -/
theorem tick_moves (h : Scheduled K) (hs : (processSchedule false).run K = .ok ((), K')) :
    ∃ p rest, K.sched.run = p :: rest ∧ Moves K K' ∧
      K'.sched = { K.sched with run := rest ++ [p] } ∧
      K'.currentPCB = (rest ++ [p]).head? := by
  cases hrun : K.sched.run with
  | nil =>
      cases hs.symm.trans (processSchedule_halts h.table hrun false)
  | cons p rest =>
      obtain ⟨h', b', e, hT, hm, hs'⟩ := h.table.processSchedule_does hrun false
      rw [hs] at e
      obtain rfl := (Prod.mk.inj (Except.ok.inj e)).2
      refine ⟨p, rest, rfl, ⟨hT, hm, rfl, rfl, rfl, rfl⟩, ?_, rfl⟩
      rw [hs']
      simp [h.zombies, scheduled]

/-- The first free process becomes runnable, or the last free one. -/
theorem fork_moves (h : Scheduled K) {a : ForkAnswers} {r : Int}
    (hs : (processFork a).run K = .ok (r, K')) :
    ∃ p rest, K.sched.free = p :: rest ∧ Moves K K' ∧
      (r = p.val ∧ K'.sched = { K.sched with free := rest, run := K.sched.run ++ [p] } ∧
          K'.currentPCB = K.currentPCB.or (some p) ∨
        r = -1 ∧ K'.sched = { K.sched with free := rest ++ [p] } ∧
          K'.currentPCB = K.currentPCB) := by
  obtain ⟨t, -, he⟩ | ⟨-, r', K'', e, hf⟩ := processFork_spec h.table a
  · cases hs.symm.trans he
  rw [hs] at e
  obtain ⟨rfl, rfl⟩ := Prod.mk.inj (Except.ok.inj e)
  cases hf with
  | @run p rest h' b' hfree hr hK hT hl =>
      have hm : K'.monitor = K.monitor := by
        rw [hK]
        refine (KState.setCurrent_monitor _ _).trans ?_
        rw [remake_monitor hl]
        simp [KState.monitor]
      refine ⟨p, rest, hfree, ⟨?_, hm, ?_, ?_, ?_, ?_⟩, .inl ⟨hr, ?_, ?_⟩⟩
      · rw [hK]
        exact hT.setCurrent _
      all_goals rw [hK]
      · rfl
      · rfl
      · rfl
      · rfl
      · refine (KState.setCurrent_sched _ _).trans ?_
        simp [KState.sched, hl]
      · rfl
  | @failed p rest h' b' hfree hr hK hT hl =>
      have hm : K'.monitor = K.monitor := by
        rw [hK, remake_monitor hl]
        simp [KState.monitor]
      refine ⟨p, rest, hfree, ⟨hK ▸ hT, hm, ?_, ?_, ?_, ?_⟩, .inr ⟨hr, ?_, ?_⟩⟩
      all_goals rw [hK]
      · rfl
      · rfl
      · rfl
      · rfl
      · simp [KState.sched, hl]
      · rfl

/-- The process that exits leaves the run queue as a zombie. -/
theorem destroy_runs (h : Scheduled K) {others : List PcbPtr} (hrun : K.sched.run = p :: others) :
    ∃ h₁ b₁, (processDestroy p).run K = .ok ((), K.remake h₁ b₁) ∧ Table (K.remake h₁ b₁) ∧
      (K.remake h₁ b₁).monitor = K.monitor ∧
      (K.remake h₁ b₁).sched = { K.sched with run := others, zombies := [p] } := by
  obtain ⟨h₁, b₁, e₁, hT₁, hl₁⟩ := processDestroy_spec (p := p) h.table (by
    rw [show K.list .runQueue = p :: others from hrun]
    exact List.mem_cons_self)
  refine ⟨h₁, b₁, e₁, hT₁, ?_, ?_⟩
  · rw [remake_monitor hl₁]
    simp [KState.monitor]
  · have hz : K.list .zombieQueue = [] := h.zombies
    have hr : K.list .runQueue = p :: others := hrun
    simp [KState.sched, hl₁, hz, hr]

/-- The last runnable process that exits ends the simulation. -/
theorem exit_halts (h : Scheduled K) (hcur : K.currentPCB = some p) (hrun : K.sched.run = [p]) :
    Ends trapExit K (lastTexts K.sched.wait) := by
  obtain ⟨h₁, b₁, e₁, hT₁, -, hs₁⟩ := h.destroy_runs hrun
  have e := processSchedule_halts hT₁ (congrArg Sched.run hs₁) false
  have hwait : (K.remake h₁ b₁).list .waitQueue = K.sched.wait := congrArg Sched.wait hs₁
  rw [hwait] at e
  rw [Ends, trapExit, run_bind_ok (current_run hcur), run_bind_ok e₁]
  exact e

/-- The current process becomes free after having been a zombie for a moment. -/
theorem exit_runs (h : Scheduled K) {rest : List PcbPtr} (hrun : K.sched.run = p :: q :: rest) :
    ∃ K', trapExit.run K = .ok ((), K') ∧ Moves K K' ∧
      K'.sched = { K.sched with free := K.sched.free ++ [p], run := rest ++ [q] } ∧
      K'.currentPCB = (rest ++ [q]).head? := by
  have hcur : K.currentPCB = some p := by rw [h.current, hrun]; rfl
  obtain ⟨h₁, b₁, e₁, hT₁, hm₁, hs₁⟩ := h.destroy_runs hrun
  obtain ⟨h', b', e, hT, hm, hs'⟩ := hT₁.processSchedule_does (congrArg Sched.run hs₁) false
  refine ⟨_, ?_, ⟨hT, hm.trans hm₁, rfl, rfl, rfl, rfl⟩, ?_, rfl⟩
  · rw [trapExit, run_bind_ok (current_run hcur), run_bind_ok e₁]
    exact e
  · rw [hs', hs₁]
    simp [h.zombies, scheduled]

/-- The process after the one that exits is passed over. -/
theorem exit_moves (h : Scheduled K) (hcur : K.currentPCB = some p)
    (hs : trapExit.run K = .ok ((), K')) :
    ∃ q rest, K.sched.run = p :: q :: rest ∧ Moves K K' ∧
      K'.sched = { K.sched with free := K.sched.free ++ [p], run := rest ++ [q] } ∧
      K'.currentPCB = (rest ++ [q]).head? := by
  obtain ⟨others, hrun⟩ := h.run_eq hcur
  cases others with
  | nil =>
      cases hs.symm.trans (h.exit_halts hcur hrun)
  | cons q rest =>
      obtain ⟨K₁, e, moves⟩ := h.exit_runs hrun
      rw [hs] at e
      obtain rfl := (Prod.mk.inj (Except.ok.inj e)).2
      exact ⟨q, rest, hrun, moves⟩

/-- The current process goes to the end of the sleeping ones. -/
theorem sleep_moves (h : Scheduled K) (hcur : K.currentPCB = some p)
    (hs : processSleep.run K = .ok ((), K')) :
    ∃ q rest, K.sched.run = p :: q :: rest ∧ Moves K K' ∧ K'.sched = K.sched.sleep p ∧
      K'.currentPCB = some q := by
  obtain ⟨others, hrun⟩ := h.run_eq hcur
  have hp : p ∈ K.sched.run := by simp [hrun]
  cases others with
  | nil =>
      cases hs.symm.trans (h.table.processSleep_halts hcur (by simp [hrun]) hp)
  | cons q rest =>
      have hrest : K.sched.run.erase p = q :: rest := by simp [hrun]
      obtain ⟨h', b', e, hT, hm, hs'⟩ := h.table.processSleep_does hcur hrest hp h.zombies
      rw [hs] at e
      obtain rfl := (Prod.mk.inj (Except.ok.inj e)).2
      exact ⟨q, rest, hrun, ⟨hT, hm, rfl, rfl, rfl, rfl⟩, hs', rfl⟩

/-- A sleeping process goes to the end of the run queue. -/
theorem wakeup_moves (h : Scheduled K) (hp : p ∈ K.sched.wait)
    (hs : (processWakeup p).run K = .ok ((), K')) :
    Moves K K' ∧ K'.sched = K.sched.wake (some p) ∧ K'.currentPCB = K.currentPCB := by
  obtain ⟨h', b', e, hT, hm, hs'⟩ := h.table.processWakeup_does hp
  rw [hs] at e
  obtain rfl := (Prod.mk.inj (Except.ok.inj e)).2
  exact ⟨⟨hT, hm, rfl, rfl, rfl, rfl⟩, hs', rfl⟩

/-! ### Every process keeps its place -/

theorem tick (h : Scheduled K) (hs : (processSchedule false).run K = .ok ((), K')) :
    Scheduled K' := by
  obtain ⟨p, rest, hrun, hm, hs', hc⟩ := h.tick_moves hs
  refine ⟨hm.table, by rw [hs']; exact h.zombies, fun q => ?_, by rw [hs', hc]⟩
  rw [hs']
  simpa [hrun, or_comm] using h.placed q

theorem fork (h : Scheduled K) {a : ForkAnswers} {r : Int}
    (hs : (processFork a).run K = .ok (r, K')) : Scheduled K' := by
  obtain ⟨p, rest, hfree, hm, ⟨-, hs', hc⟩ | ⟨-, hs', hc⟩⟩ := h.fork_moves hs
  · refine ⟨hm.table, by rw [hs']; exact h.zombies, fun q => ?_, ?_⟩
    · have := h.placed q
      rw [hs']
      rw [hfree] at this
      simp only [List.mem_cons, List.mem_append, List.mem_nil_iff, or_false] at this ⊢
      tauto
    · rw [hs', hc, h.current, List.head?_append]
      rfl
  · refine ⟨hm.table, by rw [hs']; exact h.zombies, fun q => ?_, by rw [hs', hc, h.current]⟩
    rw [hs']
    simpa [hfree, or_comm, or_assoc] using h.placed q

theorem exit (h : Scheduled K) (hcur : K.currentPCB = some p)
    (hs : trapExit.run K = .ok ((), K')) : Scheduled K' := by
  obtain ⟨q, rest, hrun, hm, hs', hc⟩ := h.exit_moves hcur hs
  refine ⟨hm.table, by rw [hs']; exact h.zombies, fun q' => ?_, by rw [hs', hc]⟩
  have := h.placed q'
  rw [hs']
  rw [hrun] at this
  simp only [List.mem_append, List.mem_cons, List.mem_nil_iff, or_false] at this ⊢
  tauto

theorem sleep (h : Scheduled K) (hcur : K.currentPCB = some p)
    (hs : processSleep.run K = .ok ((), K')) : Scheduled K' := by
  obtain ⟨q, rest, hrun, hm, hs', hc⟩ := h.sleep_moves hcur hs
  refine ⟨hm.table, by rw [hs']; exact h.zombies, fun q' => ?_, ?_⟩
  · have := h.placed q'
    rw [hs']
    simp only [Sched.sleep, hrun, List.erase_cons_head, List.mem_append, List.mem_cons,
      List.mem_nil_iff, or_false] at this ⊢
    tauto
  · rw [hs', hc]
    simp [Sched.sleep, hrun]

theorem wakeup (h : Scheduled K) (running : K.currentPCB ≠ none) (hp : p ∈ K.sched.wait)
    (hs : (processWakeup p).run K = .ok ((), K')) : Scheduled K' := by
  obtain ⟨hm, hs', hc⟩ := h.wakeup_moves hp hs
  refine ⟨hm.table, by rw [hs']; exact h.zombies, fun q => ?_, ?_⟩
  · rw [hs']
    rcases h.placed q with hq | hq | hq
    · exact .inl hq
    · exact .inr (.inl (List.mem_append_left _ hq))
    · by_cases c : q = p
      · exact .inr (.inl (by simp [Sched.wake, c]))
      · exact .inr (.inr ((List.mem_erase_of_ne c).mpr hq))
  · obtain ⟨a, ha⟩ := Option.ne_none_iff_exists'.mp running
    obtain ⟨rest, hr⟩ := h.run_eq ha
    rw [hs', hc, ha]
    simp [Sched.wake, hr]

end Scheduled

end DlxOs.Kernel
