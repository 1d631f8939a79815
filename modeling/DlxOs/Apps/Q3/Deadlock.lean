import DlxOs.Apps.Q3.Safety

/-!
# Deadlock in the ring buffer with semaphores

A consumer that finds the item it expects in the head slot waits for a full
slot with the lock. The item may be one that was removed a round ago, and then
nobody can take the lock any more. A round is 32 items, and the consumer must
have left all of them to the others, so with four pairs this cannot happen.
With five pairs it can.
-/

namespace DlxOs.Apps.Q3

open Monitors Interleavings

variable {N : ℕ}

/-- The child has come to its end. -/
def Finished : (p : Child N) → Loc N p → Prop
  | .inl _, l => l.pc = .finished
  | .inr _, l => l.pc = .finished

/-- While some children have not come to their end, one of these is not asleep. -/
def DeadlockFree (N : ℕ) : Prop :=
  ∀ s, ((program N).system (start N)).Reachable s → (∃ p, ¬ Finished p (s.loc p)) →
    ∃ p, ¬ Finished p (s.loc p) ∧ s.session.Awake p

variable {s : State N}

/-- A producer that sleeps waits for an empty slot or for the lock. -/
theorem Producer.asleep_cases (h : (system N).Reachable s) {i : Fin N}
    (asleep : ¬ s.session.Awake (producer i)) :
    ((s.producerAt i).pc = .waitEmptySlot ∧
      producer i ∈ s.session.mon.waiting (.sem .emptyslots)) ∨
    ((s.producerAt i).pc = .lockAcquire ∧ producer i ∈ s.session.mon.waiting (.lock .lock)) := by
  have hs := Threads.reachable_coherent begin_fresh h
  obtain ⟨w, hw⟩ := not_forall_not.mp asleep
  obtain ⟨c, hc, e⟩ := hs.sound.pending w _ hw
  obtain ⟨l, act⟩ := hs.called _ c hc
  have act : action _ = _ := Program.noted_call.mp act
  change action (s.producerAt i) = _ at act
  generalize s.producerAt i = l₀ at act ⊢
  obtain ⟨pc, d, p⟩ := l₀
  cases pc <;> cases act <;> cases e
  · exact .inl ⟨rfl, hw⟩
  · exact .inr ⟨rfl, hw⟩

/-- A consumer that sleeps waits for the lock or for a full slot. -/
theorem Consumer.asleep_cases (h : (system N).Reachable s) {j : Fin N}
    (asleep : ¬ s.session.Awake (consumer j)) :
    ((s.consumerAt j).pc = .lockAcquire ∧ consumer j ∈ s.session.mon.waiting (.lock .lock)) ∨
    ((s.consumerAt j).pc = .waitFullSlot ∧
      consumer j ∈ s.session.mon.waiting (.sem .fullslots)) := by
  have hs := Threads.reachable_coherent begin_fresh h
  obtain ⟨w, hw⟩ := not_forall_not.mp asleep
  obtain ⟨c, hc, e⟩ := hs.sound.pending w _ hw
  obtain ⟨l, act⟩ := hs.called _ c hc
  have act : action _ = _ := Program.noted_call.mp act
  change action (s.consumerAt j) = _ at act
  generalize s.consumerAt j = l₀ at act ⊢
  obtain ⟨pc, d, p, e'⟩ := l₀
  cases pc <;> cases act <;> cases e
  · exact .inl ⟨rfl, hw⟩
  · exact .inr ⟨rfl, hw⟩

/-- Whoever is inside a call has not come to its end. -/
theorem unfinished (h : (system N).Reachable s) {p : Child N} {c : Call (Child N) Sem Lock Cond}
    (hc : s.session.pending p = some c) : ¬ Finished p (s.loc p) := by
  obtain ⟨l, act⟩ := (Threads.reachable_coherent begin_fresh h).called _ c hc
  have act := Program.noted_call.mp act
  intro hf
  cases p with
  | inl i =>
      change Producer.action (s.producerAt i) = _ at act
      rw [Producer.action, show (s.producerAt i).pc = .finished from hf] at act
      cases act
  | inr j =>
      change Consumer.action (s.consumerAt j) = _ at act
      rw [Consumer.action, show (s.consumerAt j).pc = .finished from hf] at act
      cases act

/-! ### Few pairs -/

/-- Everybody has come to its end or sleeps. -/
def Stuck (s : State N) : Prop := ∀ p, ¬ Finished p (s.loc p) → ¬ s.session.Awake p

theorem Stuck.asleep (hd : Stuck s) (h : (system N).Reachable s) {p : Child N}
    {c : Call (Child N) Sem Lock Cond} (hc : s.session.pending p = some c) :
    ¬ s.session.Awake p :=
  hd p (unfinished h hc)

/-- A producer that is stuck has not been through a wait since its last item. -/
theorem Stuck.producer (hd : Stuck s) (h : (system N).Reachable s) (i : Fin N) :
    (s.producerAt i).pc = .finished ∨ (s.producerAt i).pc = .waitEmptySlot ∨
      (s.producerAt i).pc = .lockAcquire ∧ s.session.mon.waiting (.lock .lock) ≠ [] := by
  by_cases hf : (s.producerAt i).pc = .finished
  · exact .inl hf
  · right
    rcases Producer.asleep_cases h (hd (Apps.producer i) hf) with ⟨hpc, -⟩ | ⟨hpc, hw⟩
    · exact .inl hpc
    · exact .inr ⟨hpc, List.ne_nil_of_mem hw⟩

theorem Stuck.consumer (hd : Stuck s) (h : (system N).Reachable s) (j : Fin N) :
    (s.consumerAt j).pc = .finished ∨
      (s.consumerAt j).pc = .lockAcquire ∧ s.session.mon.waiting (.lock .lock) ≠ [] ∨
      (s.consumerAt j).pc = .waitFullSlot ∧
        Apps.consumer j ∈ s.session.mon.waiting (.sem .fullslots) := by
  by_cases hf : (s.consumerAt j).pc = .finished
  · exact .inl hf
  · right
    rcases Consumer.asleep_cases h (hd (Apps.consumer j) hf) with ⟨hpc, hw⟩ | ⟨hpc, hw⟩
    · exact .inl ⟨hpc, List.ne_nil_of_mem hw⟩
    · exact .inr ⟨hpc, hw⟩

/-- The children are not stuck with a free lock. -/
theorem Stuck.owned (hd : Stuck s) (h : (system N).Reachable s)
    (hu : ∃ p, ¬ Finished p (s.loc p)) : s.session.mon.owner .lock ≠ none := by
  intro free
  have hs := Threads.reachable_coherent begin_fresh h
  have hw : s.session.mon.waiting (.lock .lock) = [] := hs.sound.free _ free
  have consumers : ∀ j, (s.consumerAt j).pc = .finished := by
    intro j
    rcases hd.consumer h j with hpc | ⟨-, hne⟩ | ⟨hpc, -⟩
    · exact hpc
    · exact absurd hw hne
    · have hin : holds (Apps.consumer j) (s.loc (Apps.consumer j)) := by
        change (s.consumerAt j).pc.inside = true
        rw [hpc]
        rfl
      obtain ⟨c, -⟩ := (reachable_lock h).quiet hs.sound free hin
      exact c.elim
  have producers : ∀ i, (s.producerAt i).pc = .finished ∨
      (s.producerAt i).pc = .waitEmptySlot := by
    intro i
    rcases hd.producer h i with hpc | hpc | ⟨-, hne⟩
    · exact .inl hpc
    · exact .inr hpc
    · exact absurd hw hne
  have queued : s.session.mon.waiting (.sem .emptyslots) ≠ [] := by
    obtain ⟨p, hp⟩ := hu
    cases p with
    | inl i =>
        rcases Producer.asleep_cases h (hd _ hp) with ⟨-, hm⟩ | ⟨-, hm⟩
        · exact List.ne_nil_of_mem hm
        · exact absurd hw (List.ne_nil_of_mem hm)
    | inr j => exact absurd (consumers j) hp
  have balance := sum_reserved_eq h (fun p hp => hd.asleep h hp) queued
  have all : ∑ j, (s.consumerAt j).cDepot.index = 10 * N := by
    have each : ∀ j, (s.consumerAt j).cDepot.index = 10 := fun j =>
      Consumer.Knows.done (reachable_knows h (Apps.consumer j)) (by
        rw [consumers j]
        rfl)
    simp [each, mul_comm]
  have most : ∑ i, ((s.producerAt i).pDepot.index + (s.producerAt i).pc.reserved.toNat) ≤
      ∑ i : Fin N, 10 := by
    refine Finset.sum_le_sum fun i _ => ?_
    have hle := Producer.Knows.le (reachable_knows h (Apps.producer i))
    change (s.producerAt i).pDepot.index + _ ≤ 10 at hle
    rcases producers i with hpc | hpc
    · rw [hpc] at hle ⊢
      exact hle
    · rw [hpc] at hle ⊢
      exact hle
  have size : bufferSize = 32 := rfl
  simp only [Finset.sum_const, Finset.card_univ, Fintype.card_fin, smul_eq_mul] at most
  omega

/-- When the children are stuck, the lock belongs to a consumer that waits for a full slot. -/
theorem Stuck.owner (hd : Stuck s) (h : (system N).Reachable s) {p : Child N}
    (ho : s.session.mon.owner .lock = some p) : ∃ j, p = Apps.consumer j ∧
      s.session.pending p = some (.semWait .fullslots) ∧ (s.consumerAt j).pc = .waitFullSlot ∧
        Apps.consumer j ∈ s.session.mon.waiting (.sem .fullslots) := by
  have hs := Threads.reachable_coherent begin_fresh h
  have hin := (reachable_lock h p).mp ho
  rw [Threads.Inside] at hin
  have asleep : ¬ s.session.Awake p := by
    intro awake
    cases hp : s.session.pending p with
    | some c => exact hd.asleep h hp awake
    | none =>
        simp only [hp] at hin
        refine hd p (fun hf => ?_) awake
        cases p with
        | inl i =>
            rw [holds, show (s.loc (.inl i)).pc = .finished from hf] at hin
            cases hin
        | inr j =>
            rw [holds, show (s.loc (.inr j)).pc = .finished from hf] at hin
            cases hin
  have inside : holds p (s.loc p) := by
    cases hp : s.session.pending p with
    | none => exact absurd (hs.sound.awake hp) asleep
    | some c =>
        simp only [hp] at hin
        rcases hin with ⟨-, awake⟩ | ⟨-, hh⟩
        · exact absurd awake asleep
        · exact hh
  cases p with
  | inl i =>
      exfalso
      rcases Producer.asleep_cases h asleep with ⟨hpc, -⟩ | ⟨hpc, -⟩
      · rw [holds, show (s.loc (.inl i)).pc = _ from hpc] at inside
        cases inside
      · rw [holds, show (s.loc (.inl i)).pc = _ from hpc] at inside
        cases inside
  | inr j =>
      rcases Consumer.asleep_cases h asleep with ⟨hpc, -⟩ | ⟨hpc, hw⟩
      · rw [holds, show (s.loc (.inr j)).pc = _ from hpc] at inside
        cases inside
      · obtain ⟨c, hc, e⟩ := hs.sound.pending _ _ hw
        obtain rfl : c = .semWait .fullslots := by
          cases c <;> cases e
          rfl
        exact ⟨j, rfl, hc, hpc, hw⟩

/-- Everybody else is outside, so the counts of the items agree with the indices. -/
theorem Stuck.indices (hd : Stuck s) (h : (system N).Reachable s) :
    (∀ i, (s.producerAt i).pDepot.index = places.made (s.producerAt i)) ∧
      ∀ j, (s.consumerAt j).cDepot.index = places.gone (s.consumerAt j) ∧
        (s.consumerAt j).pc.reserved = false := by
  constructor
  · intro i
    rcases hd.producer h i with hpc | hpc | ⟨hpc, -⟩ <;> rw [Places.made, hpc] <;> rfl
  · intro j
    rcases hd.consumer h j with hpc | ⟨hpc, -⟩ | ⟨hpc, -⟩ <;> rw [Places.gone, hpc] <;>
      exact ⟨rfl, rfl⟩

theorem nul_not_mem_digits : nul ∉ digits := by decide

/-- Only with five pairs or more are the children ever stuck. -/
theorem Stuck.many (hd : Stuck s) (h : (system N).Reachable s)
    (hu : ∃ p, ¬ Finished p (s.loc p)) : 5 ≤ N := by
  obtain ⟨p, ho⟩ := Option.ne_none_iff_exists'.mp (hd.owned h hu)
  obtain ⟨j, rfl, hpend, hpc, hw⟩ := hd.owner h ho
  obtain ⟨hi, hr⟩ := places.sum_knows (reachable_knows h)
  change ∑ i, places.made (s.producerAt i) = s.record.inserted.length at hi
  change ∑ j, places.gone (s.consumerAt j) = s.record.removed.length at hr
  obtain ⟨made, gone⟩ := hd.indices h
  have hf := reachable_fits h
  -- The ring is empty.
  have empty : s.record.removed.length = s.record.inserted.length := by
    have := sum_claimed_eq h (fun p hp => hd.asleep h hp) (List.ne_nil_of_mem hw)
    simp only [made, gone, Bool.toNat_false, add_zero, hi, hr] at this
    exact this
  have expected : s.buf.head = (s.consumerAt j).expectedItem := by
    have hat := (reachable_safety h).owner _ ho
    rw [Outline.At, hpend] at hat
    have hrel : Consumer.Relies (s.consumerAt j) s.buf := hat.2
    rwa [Consumer.Relies, hpc] at hrel
  have hk : (s.consumerAt j).Knows places (s.record.removedBy j) :=
    reachable_knows h (Apps.consumer j)
  have digit := hk.seeks (by rw [hpc]; rfl)
  rw [← expected] at digit
  have stale := hf.ring.stale (by simpa using empty.symm) (by decide)
  rcases stale with hnul | ⟨hround, hold⟩
  · have hmem : nul ∈ digits := by
      rw [show s.buf.head = nul from hnul] at digit
      exact List.mem_of_getElem? digit
    exact absurd hmem nul_not_mem_digits
  · have hlt : s.record.removed.length - bufferSize < s.record.inserted.length := by
      have size : bufferSize = 32 := rfl
      omega
    rw [List.getElem?_map, List.getElem?_eq_getElem hlt] at hold
    have late : (s.consumerAt j).cDepot.index ≤ s.record.removed.length - bufferSize := by
      have inserted : ∀ i, itemsOf Entry.who Entry.item i s.record.inserted <+: digits := fun i =>
        Producer.Knows.isPrefix (reachable_knows h (Apps.producer i))
      exact le_position digits_nodup inserted hlt (digit.trans hold.symm)
    have others : s.record.removed.length ≤ (s.consumerAt j).cDepot.index + (N - 1) * 10 := by
      rw [← hr, ← Finset.add_sum_erase _ _ (Finset.mem_univ j), ← (gone j).1]
      refine Nat.add_le_add_left ?_ _
      refine (Finset.sum_le_card_nsmul _ _ 10 fun k _ => ?_).trans ?_
      · exact Consumer.Knows.le (reachable_knows h (Apps.consumer k))
      · simp
    have size : bufferSize = 32 := rfl
    omega

end DlxOs.Apps.Q3
