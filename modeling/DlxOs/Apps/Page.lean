import DlxOs.Apps.Completion

/-!
# The page on the kernel

The children of the ring buffer programs work on one page. Whoever is about to
read or write it has the kernel's lock, however the kernel schedules the
children, and the ring on the page is in order.
-/

namespace DlxOs.Apps

open Monitors Kernel

variable {N : ℕ}

/-- The child is the only one about to work on the page, and the lock of the kernel is its own. -/
def HasPage {Sem Lock Cond : Type} {Loc : Child N → Type} {Mem : Type}
    (π : Program (Child N) Sem Lock Cond Loc Mem) (k : LockPtr) (h : Hosted (Child N) Loc Mem)
    (p : Child N) : Prop :=
  ∃ r, h.place p = .runs r ∧ (h.machine.kernel.locks k).pid = r.val ∧
    ∀ q g, π q (h.loc q) = .compute g → q = p

theorem Q2.page_locked {first : ℕ → Char} {ν : Handles Q2.Sem Q2.Lock Q2.Cond}
    {h : Hosted (Child N) (Q2.Loc N) (SharedBuffer × Record N)}
    (hr : (hostedSystem (Q2.noted N) ν (Q2.begin N first)).Reachable h) {p : Child N} {f}
    (act : Q2.noted N p (h.loc p) = .compute f) : HasPage (Q2.noted N) (ν.lock .lock) h p :=
  hosted_locked Q2.begin_fresh Q2.quiet Q2.lets (fun _ => Threads.reachable_guarded Q2.begin_fresh
    Q2.disciplined (fun _ => rfl) Q2.begin_outside) (fun _ _ _ => Q2.compute_inside) hr act

theorem Q3.page_locked {ν : Handles Q3.Sem Q3.Lock Q3.Cond}
    {h : Hosted (Child N) (Q3.Loc N) (SharedBuffer × Record N)}
    (common : ∀ s, ν.common s → s = .procsCompleted)
    (hr : (hostedSystem (Q3.noted N) ν (Q3.begin N)).Reachable h) {p : Child N} {f}
    (act : Q3.noted N p (h.loc p) = .compute f) : HasPage (Q3.noted N) (ν.lock .lock) h p :=
  hosted_locked Q3.begin_fresh (Q3.quiet common) Q3.lets (fun _ => Q3.reachable_lock)
    (fun _ _ _ => Q3.compute_inside) hr act

theorem Q4.page_locked {ν : Handles Q4.Sem Q4.Lock Q4.Cond}
    {h : Hosted (Child N) (Q4.Loc N) (SharedBuffer × Record N)}
    (hr : (hostedSystem (Q4.noted N) ν (Q4.begin N)).Reachable h) {p : Child N} {f}
    (act : Q4.noted N p (h.loc p) = .compute f) : HasPage (Q4.noted N) (ν.lock .lock) h p :=
  hosted_locked Q4.begin_fresh Q4.quiet Q4.lets (fun _ => Q4.reachable_lock)
    (fun _ _ _ => Q4.compute_inside) hr act

namespace Q4

variable {ν : Handles Sem Lock Cond} {h : Hosted (Child N) (Loc N) (SharedBuffer × Record N)}

/-- A producer that is about to store has the page to itself and a free slot, and a consumer that is
about to remove has the page to itself and its item in the head slot. -/
theorem page_used_safely (hr : (hostedSystem (noted N) ν (begin N)).Reachable h) :
    (∀ i, (h.loc (producer i)).pc = .store → HasPage (noted N) (ν.lock .lock) h (producer i) ∧
      (h.mem.1.wIdx + 1) % bufferSize ≠ h.mem.1.rIdx) ∧
    ∀ j, (h.loc (consumer j)).pc = .remove → HasPage (noted N) (ν.lock .lock) h (consumer j) ∧
      h.mem.1.wIdx ≠ h.mem.1.rIdx ∧ h.mem.1.head = (h.loc (consumer j)).expectedItem := by
  obtain ⟨σ, hσ, -⟩ := hosted_simulates begin_fresh quiet lets hr
  have ring := reachable_ring hσ
  refine ⟨fun i hpc => ?_, fun j hpc => ?_⟩
  · obtain ⟨f, act⟩ : ∃ f, noted N (producer i) (h.loc (producer i)) = .compute f :=
      ⟨_, Program.noted_compute.mpr ⟨_, by simp only [program, Producer.action, hpc]; rfl, rfl⟩⟩
    exact ⟨page_locked hr act, ring.room_iff.mp (Producer.relies_store hσ hpc)⟩
  · obtain ⟨f, act⟩ : ∃ f, noted N (consumer j) (h.loc (consumer j)) = .compute f :=
      ⟨_, Program.noted_compute.mpr ⟨_, by simp only [program, Consumer.action, hpc]; rfl, rfl⟩⟩
    have relies : Consumer.Relies (h.loc (consumer j)) h.mem := relies_compute hσ act
    rw [Consumer.Relies, hpc] at relies
    exact ⟨page_locked hr act, ring.stocked_iff.mp relies.1, relies.2⟩

/-- The producer of one pair is about to store. -/
theorem page_used_safely_store :
    ∃ (ν : Handles Sem Lock Cond) (h : Hosted (Child 1) (Loc 1) (SharedBuffer × Record 1)),
      (hostedSystem (noted 1) ν (begin 1)).Reachable h ∧ (h.loc (producer 0)).pc = .store ∧
      HasPage (noted 1) (ν.lock .lock) h (producer 0) ∧
      (h.mem.1.wIdx + 1) % bufferSize ≠ h.mem.1.rIdx := by
  obtain ⟨ν, h, s, common, hr, hs, hloc, -⟩ := exists_hosted (π := noted 1)
    (begin_fresh : (begin 1).Fresh) returns.asks (· = .procsCompleted) (by decide) (by decide)
    (by decide) (by decide) [producer 0, producer 0] (by decide)
  have stores : (Threads.exec (noted 1) (begin 1) [producer 0, producer 0]).all fun s =>
      decide ((s.loc (producer 0)).pc = .store) := by decide
  rw [hs, Option.all_some, decide_eq_true_iff, ← hloc] at stores
  exact ⟨ν, h, hr.unrestricted, stores, (page_used_safely hr.unrestricted).1 0 stores⟩

end Q4

end DlxOs.Apps
