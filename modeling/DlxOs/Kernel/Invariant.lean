import DlxOs.Kernel.Scheduling

/-!
# The invariant of the machine

`Machine.Inv` says that every PCB has its place and that the monitor and the
scheduler agree on who sleeps. The steps of the scheduler keep it and are
nothing to the processes.
-/

namespace DlxOs.Kernel

open Queue Monitors Transition

/-- Every PCB has its place, and the monitor and the scheduler agree on who sleeps. -/
structure Machine.Inv (m : Machine) : Prop extends Scheduled m.kernel where
  sane : Sane m.kernel
  sound : m.view.Sound
  queued : ∀ w, ∀ q ∈ m.kernel.monitor.waiting w, q ∈ m.kernel.sched.wait
  inside : ∀ p e, m.pending p = some e → e.1.meaning ≠ none ∧
    (p ∈ m.kernel.sched.run ∨ ∃ w, p ∈ m.kernel.monitor.waiting w)

variable {m m' : Machine} {K K' : KState} {p q : PcbPtr}

namespace Machine.Inv

theorem serving (h : m.Inv) (hc : m.kernel.currentPCB = some p) : Serving m.kernel p where
  table := h.table
  current := hc
  head := h.current.symm.trans hc
  zombies := h.zombies
  queued := h.queued
  sane := h.sane

/-- A process that sleeps outside the primitives is queued nowhere. -/
theorem not_queued (h : m.Inv) (outside : m.pending p = none) (w : WaitObject) :
    p ∉ m.kernel.monitor.waiting w := fun hm => by
  obtain ⟨d, hd, -⟩ := h.sound.pending w p hm
  simp [Machine.view, outside] at hd

/-- A step that only moves processes between the lists of the scheduler. -/
theorem moved (h : m.Inv) (hm : Moves m.kernel K) (hs : Scheduled K)
    (hq : ∀ w, ∀ q ∈ m.kernel.monitor.waiting w, q ∈ K.sched.wait)
    (hin : ∀ p e, m.pending p = some e → p ∈ m.kernel.sched.run → p ∈ K.sched.run) :
    (m.setKernel K).Inv ∧ (m.setKernel K).view = m.view := by
  have hview : (m.setKernel K).view = m.view := by
    simp only [Machine.view, Machine.setKernel, hm.monitor, hm.inuse]
  refine ⟨⟨hs, ⟨fun k hk => ?_, fun b hb => ?_⟩, hview ▸ h.sound,
    fun w q hqw => hq w q ?_, fun p e he => ?_⟩, hview⟩
  · change (K.locks k).inuse = true at hk
    change (K.locks k).pid = -1 ∨ ∃ q : PcbPtr, (K.locks k).pid = q.val
    rw [hm.locks] at hk ⊢
    exact h.sane.pids k hk
  · change (K.conds b).inuse = true at hb
    change ∃ k : LockPtr, (K.conds b).lock = k.val ∧ (K.locks k).inuse = true
    rw [hm.conds] at hb ⊢
    rw [hm.locks]
    exact h.sane.bounds b hb
  · exact hm.monitor ▸ hqw
  · obtain ⟨hmean, hrun | ⟨w, hw⟩⟩ := h.inside p e he
    · exact ⟨hmean, .inl (hin p e he hrun)⟩
    · exact ⟨hmean, .inr ⟨w, (congrFun (congrArg Monitor.waiting hm.monitor) w).symm ▸ hw⟩⟩

theorem tick (h : m.Inv) (hs : (processSchedule false).run m.kernel = .ok ((), K)) :
    (m.setKernel K).Inv ∧ (m.setKernel K).view = m.view := by
  obtain ⟨p, rest, hrun, hm, hs', -⟩ := h.tick_moves hs
  refine h.moved hm (h.toScheduled.tick hs) (fun w q hq => ?_) fun q e he hq => ?_
  · rw [hs']
    exact h.queued w q hq
  · rw [hs']
    simpa [hrun, or_comm] using hq

theorem fork (h : m.Inv) {a : ForkAnswers} {r : Int}
    (hs : (processFork a).run m.kernel = .ok (r, K)) :
    (m.setKernel K).Inv ∧ (m.setKernel K).view = m.view := by
  obtain ⟨p, rest, hfree, hm, ⟨-, hs', -⟩ | ⟨-, hs', -⟩⟩ := h.fork_moves hs
  · refine h.moved hm (h.toScheduled.fork hs) (fun w q hq => ?_) fun q e he hq => ?_
    · rw [hs']
      exact h.queued w q hq
    · rw [hs']
      exact List.mem_append_left _ hq
  · refine h.moved hm (h.toScheduled.fork hs) (fun w q hq => ?_) fun q e he hq => ?_
    · rw [hs']
      exact h.queued w q hq
    · rw [hs']
      exact hq

theorem exit (h : m.Inv) (active : m.Active p) (hs : trapExit.run m.kernel = .ok ((), K)) :
    (m.setKernel K).Inv ∧ (m.setKernel K).view = m.view := by
  obtain ⟨hcur, hpend⟩ := active
  obtain ⟨q, rest, hrun, hm, hs', -⟩ := h.exit_moves hcur hs
  refine h.moved hm (h.toScheduled.exit hcur hs) (fun w q hq => ?_) fun q' e he hq => ?_
  · rw [hs']
    exact h.queued w q hq
  · have hne : q' ≠ p := fun c => by
      rw [c, hpend] at he
      cases he
    rw [hs']
    rw [hrun] at hq
    simpa [or_comm, hne] using hq

theorem sleep (h : m.Inv) (active : m.Active p) (hs : processSleep.run m.kernel = .ok ((), K)) :
    (m.setKernel K).Inv ∧ (m.setKernel K).view = m.view := by
  obtain ⟨hcur, hpend⟩ := active
  obtain ⟨q, rest, hrun, hm, hs', -⟩ := h.sleep_moves hcur hs
  refine h.moved hm (h.toScheduled.sleep hcur hs) (fun w q hq => ?_) fun q' e he hq => ?_
  · rw [hs']
    exact List.mem_append_left _ (h.queued w q hq)
  · have hne : q' ≠ p := fun c => by
      rw [c, hpend] at he
      cases he
    rw [hs']
    exact (List.mem_erase_of_ne hne).mpr hq

theorem wakeup (h : m.Inv) (running : m.kernel.currentPCB ≠ none) (outside : m.pending p = none)
    (waiting : m.kernel.statusOf p = processStatusWaiting)
    (hs : (processWakeup p).run m.kernel = .ok ((), K)) :
    (m.setKernel K).Inv ∧ (m.setKernel K).view = m.view := by
  have hp := (h.waiting_iff p).mp waiting
  obtain ⟨hm, hs', -⟩ := h.wakeup_moves hp hs
  refine h.moved hm (h.toScheduled.wakeup running hp hs) (fun w q hq => ?_) fun q e he hq => ?_
  · rw [hs']
    have hne : q ≠ p := fun c => h.not_queued outside w (c ▸ hq)
    exact (List.mem_erase_of_ne hne).mpr (h.queued w q hq)
  · rw [hs']
    exact List.mem_append_left _ hq

end Machine.Inv

end DlxOs.Kernel
