import DlxOs.Kernel.SynchSpec

/-!
# The transfer of a lock

`LockTransfer` searches the waiting queue of the lock for its new owner. The
search follows the links of the queue from the first one and stops at the link
of that process, if there is one.
-/

namespace DlxOs.Kernel

open Queue Monitors

variable {K : KState} {S : Pool KQueue PcbPtr} {p q : PcbPtr} {k : LockPtr} {l : LinkPtr}
  {w : WaitObject}

/-- Any process can leave a waiting queue by its link. -/
theorem LinkedBy.removeLink_does (hS : LinkedBy K S) (h : Table K) (hw : K.inuse w = true)
    {xs ys : List LinkPtr} (hL : S.items (.named (.waiting w)) = xs ++ l :: ys)
    (hp : S.object l = some p) (text : String) :
    Does (removeLink (some l) text) K () K
      (K.monitor.setWaiting w ((K.monitor.waiting w).erase p)) K.sched := by
  have hq : K.ready (.waiting w) = true := hw
  obtain ⟨h', e, t⟩ := hS.represents.remove ((hS.known _).mpr hq) (l := l) (by simp [hL]) rfl
  obtain ⟨hL', hl⟩ := hS.unplace hq hL hp (K.setHeap h') t (by simp) fun _ _ => rfl
  have hsplit : K.list (.waiting w) = xs.filterMap S.object ++ p :: ys.filterMap S.object := by
    rw [hS.list_eq hq, pids, hL, List.filterMap_append, List.filterMap_cons_some hp]
  have herase : (K.list (.waiting w)).erase p =
      xs.filterMap S.object ++ ys.filterMap S.object := by
    have hnd := h.sparse.nodup (.waiting w)
    rw [hsplit] at hnd
    have hpx : p ∉ xs.filterMap S.object := fun hm =>
      (List.nodup_append.mp hnd).2.2 p hm p (by simp) rfl
    rw [hsplit, List.erase_append_right _ hpx, List.erase_cons_head]
  have hl' : (K.remake h' K.pcbs).list =
      Function.update K.list (.waiting w) ((K.list (.waiting w)).erase p) := by
    rw [herase]
    exact hl
  refine ⟨h', K.pcbs, checked_run text (by simp [e]), ⟨⟨_, hL'⟩, ?_, fun q st hq p' hp' => ?_⟩,
    ?_, ?_⟩
  · rw [hl']
    exact h.sparse.update ((h.sparse.nodup _).erase p) fun p' hm => .inl (List.mem_of_mem_erase hm)
  · have hne : q ≠ .waiting w := fun e => by
      rw [e] at hq
      cases hq
    rw [hl', Function.update_of_ne hne] at hp'
    exact h.status q st hq p' hp'
  · rw [remake_monitor hl']
    simp only [Monitor.setWaiting, KState.monitor]
    congr 1
    funext v
    by_cases e : v = w
    · subst e
      simp
    · simp [e]
  · simp [KState.sched, hl']

/-- The search ends without effect, or at the link of the new owner. -/
theorem LinkedBy.transferWake_cases (hS : LinkedBy K S) (hw : K.inuse (.lock k) = true)
    (hq : (K.locks k).pid = q.val) (ys : List LinkPtr) : ∀ (xs : List LinkPtr) (fuel : Nat),
    S.items (.named (.waiting (.lock k))) = xs ++ ys → ys.length < fuel →
    (q ∉ ys.filterMap S.object ∧ (transferWake k fuel ys.head?).run K = .ok ((), K)) ∨
      ∃ zs l us, ys = zs ++ l :: us ∧ S.object l = some q ∧
        (transferWake k fuel ys.head?).run K = (do
          removeLink (some l)
            "FATAL ERROR: could not remove link from lock queue in LockTransfer!\n"
          processWakeup q : KernelM Unit).run K := by
  have hr : K.ready (.waiting (.lock k)) = true := hw
  have hs := hS.represents.shape _ ((hS.known _).mpr hr)
  induction ys with
  | nil =>
      intro xs fuel hL hfuel
      obtain ⟨fuel, rfl⟩ := Nat.exists_eq_succ_of_ne_zero (by simpa using hfuel.ne')
      exact .inl ⟨by simp, rfl⟩
  | cons l rest ih =>
      intro xs fuel hL hfuel
      obtain ⟨fuel, rfl⟩ := Nat.exists_eq_succ_of_ne_zero (show fuel ≠ 0 by omega)
      obtain ⟨o, ho⟩ := Option.ne_none_iff_exists'.mp (hS.object _ hr l (by simp [hL]))
      have ho' : aQueueObject K.heap l = some o := by
        rw [aQueueObject, ← hS.represents.object]
        exact ho
      have hnext : aQueueNext K.heap l = rest.head? := by
        have hchain := hs.chain
        rw [hL] at hchain
        exact hchain.nxt_eq
      have step : (transferWake k (fuel + 1) (some l)).run K =
          (if (o.val : Int) = (K.locks k).pid then (do
            removeLink (some l)
              "FATAL ERROR: could not remove link from lock queue in LockTransfer!\n"
            processWakeup o : KernelM Unit)
          else transferWake k fuel rest.head?).run K := by
        rw [transferWake, get_bind_run]
        simp only [ho', hnext]
      by_cases e : o = q
      · subst e
        refine .inr ⟨[], l, rest, rfl, ho, step.trans ?_⟩
        rw [if_pos hq.symm]
      · have hne : ¬ ((o.val : Int) = (K.locks k).pid) := fun c => e (by
          rw [hq] at c
          exact Fin.ext (by omega))
        rw [if_neg hne] at step
        rcases ih (xs ++ [l]) fuel (by simpa using hL) (by simpa using hfuel) with
          ⟨hm, hrun⟩ | ⟨zs, l', us, rfl, ho'', hrun⟩
        · refine .inl ⟨?_, step.trans hrun⟩
          rw [List.filterMap_cons_some ho, List.mem_cons, not_or]
          exact ⟨fun c => e c.symm, hm⟩
        · exact .inr ⟨l :: zs, l', us, rfl, ho'', step.trans hrun⟩

/-- The loop of `LockTransfer` wakes the new owner if it waits for the lock. -/
theorem transferWake_does (h : Table K) (hw : K.inuse (.lock k) = true)
    (hq : (K.locks k).pid = q.val)
    (hwait : ∀ q ∈ K.monitor.waiting (.lock k), q ∈ K.sched.wait) :
    Does (transferWake k (queueMaxLinks + 1)
        (aQueueFirst K.heap (.named (.waiting (.lock k))))) K () K
      (K.monitor.setWaiting (.lock k) ((K.monitor.waiting (.lock k)).erase q))
      (K.sched.wake (if q ∈ K.monitor.waiting (.lock k) then some q else none)) := by
  obtain ⟨S, hS⟩ := h.linked
  have hr : K.ready (.waiting (.lock k)) = true := hw
  have hs := hS.represents.shape _ ((hS.known _).mpr hr)
  have hfirst : aQueueFirst K.heap (.named (.waiting (.lock k))) =
      (S.items (.named (.waiting (.lock k)))).head? := hs.first
  have hlen : (S.items (.named (.waiting (.lock k)))).length < queueMaxLinks + 1 := by
    have := hs.nodup.length_le_card
    rw [Fintype.card_fin] at this
    omega
  have hmem : ∀ q, q ∈ K.monitor.waiting (.lock k) ↔
      q ∈ (S.items (.named (.waiting (.lock k)))).filterMap S.object := by
    intro q
    change q ∈ K.list (.waiting (.lock k)) ↔ _
    rw [hS.list_eq hr]
    rfl
  rw [hfirst]
  rcases hS.transferWake_cases hw hq (S.items (.named (.waiting (.lock k)))) [] _ rfl hlen with
    ⟨hm, e⟩ | ⟨zs, l, us, hL, ho, e⟩
  · have hm' : q ∉ K.monitor.waiting (.lock k) := fun c => hm ((hmem q).mp c)
    refine ⟨K.heap, K.pcbs, e, h, ?_, ?_⟩
    · rw [List.erase_of_not_mem hm', Monitor.setWaiting, Function.update_eq_self]
      rfl
    · rw [if_neg hm']
      rfl
  · have hm : q ∈ K.monitor.waiting (.lock k) := by
      rw [hmem, hL]
      simp [ho]
    obtain ⟨h₁, b₁, e₁, hT₁, hm₁, hs₁⟩ := hS.removeLink_does h hw hL ho
      "FATAL ERROR: could not remove link from lock queue in LockTransfer!\n"
    obtain ⟨h₂, b₂, e₂, hT₂, hm₂, hs₂⟩ := hT₁.processWakeup_does (p := q) (by
      rw [hs₁]
      exact hwait q hm)
    refine ⟨h₂, b₂, ?_, hT₂, hm₂.trans hm₁, ?_⟩
    · rw [e, run_bind_ok e₁]
      exact e₂
    · rw [if_pos hm]
      exact hs₂.trans (by rw [hs₁])

namespace Serving

theorem lockTransfer_calls (h : Serving K p) (hk : K.inuse (.lock k) = true) (q : PcbPtr) :
    Calls (lockTransfer k q) K p (.transfer k q) := by
  have h₀ := h.setIntrs 0xf
  have hown := owner_eq_some hk p
  by_cases hp : ((K.setIntrs 0xf).locks k).pid ≠ p.val
  · have hne : K.monitor.owner k ≠ some p := fun e => hp (hown.mp e)
    have hcall : K.monitor.call p (.transfer k q) = (.returned false, K.monitor) := if_neg hne
    refine h.returns (r := syncFail) (X := K.setIntrs 0xf) ?_ h₀.table ?_ ?_
      ((Keeps.refl K).setIntrs _) h.current
    · rw [lockTransfer, run_bind_ok disableIntrs_run, run_bind_ok h₀.getCurrentPid_run,
        get_bind_run, if_pos hp]
      rfl
    · rw [hcall, KState.setIntrs_monitor]
      rfl
    · rw [Monitor.woken, if_neg fun e => hne e.1, KState.setIntrs_sched]
      rfl
  · have ho : K.monitor.owner k = some p := hown.mpr (not_not.mp hp)
    have hcall : K.monitor.call p (.transfer k q) = (.returned true,
        (K.monitor.setOwner k (some q)).setWaiting (.lock k)
          ((K.monitor.waiting (.lock k)).erase q)) := if_pos ho
    let X := (K.setIntrs 0xf).setPid k q.val
    have hT : Table X := h₀.table.congr rfl rfl (by simp [X])
    have hm : X.monitor = K.monitor.setOwner k (some q) := by
      rw [← index_val q]
      refine (KState.setPid_monitor (K.setIntrs 0xf) hk q.val).trans ?_
      rw [KState.setIntrs_monitor]
    have hs : X.sched = K.sched := by simp [X]
    have hX : X.inuse (.lock k) = true := by simpa [X] using hk
    have hpid : (X.locks k).pid = q.val := by simp [X, KState.setPid]
    have e₀ : (modify (fun K => K.setPid k q.val) : KernelM Unit).run (K.setIntrs 0xf) =
        .ok ((), X) := rfl
    obtain ⟨h₁, b₁, e₁, hT₁, hm₁, hs₁⟩ := transferWake_does hT hX hpid (by
      rw [hm, hs]
      exact h.queued _)
    refine h.returns (r := syncSuccess) (X := (X.remake h₁ b₁).setIntrs K.intrs) ?_
      (hT₁.setIntrs _) ?_ ?_
      (((((Keeps.refl K).setIntrs _).setPid k (.inr ⟨q, rfl⟩)).remake h₁ b₁).setIntrs _) h.current
    · rw [lockTransfer, run_bind_ok disableIntrs_run, run_bind_ok h₀.getCurrentPid_run,
        get_bind_run, if_neg hp]
      change StateT.run (modify _ >>= _) _ = _
      rw [run_bind_ok e₀, get_bind_run, run_bind_ok e₁]
      rfl
    · rw [hcall, KState.setIntrs_monitor, hm₁, hm]
      rfl
    · rw [KState.setIntrs_sched, hs₁, hs, hm, Monitor.woken]
      simp only [ho, true_and, Monitor.setOwner_waiting]
      congr 1

end Serving

end DlxOs.Kernel
