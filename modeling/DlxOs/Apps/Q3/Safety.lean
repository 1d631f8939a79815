import DlxOs.Apps.Q3.Program

/-!
# Safety of the ring buffer with semaphores

A consumer looks at the head slot under the lock and keeps the lock while it
waits for a full slot, so what it found there is what it removes. The waits
that have come through at the two semaphores, counted from the places of all
children, keep the ring between empty and full.
-/

namespace DlxOs.Apps.Q3

open Monitors

variable {N : ℕ}

/-- What the consumer inside may rely on. -/
def Consumer.Relies (l : Consumer) (buf : SharedBuffer) : Prop :=
  match l.pc with
  | .waitFullSlot => buf.head = l.expectedItem
  | .remove => buf.head = l.expectedItem
  | _ => True

def Relies : (p : Child N) → Loc N p → SharedBuffer × Record N → Prop
  | .inl _, _, _ => True
  | .inr _, l, x => Consumer.Relies l x.1

/-- Whoever waits for a full slot has found its item in the head slot. -/
def safety (N : ℕ) : Outline (Child N) Cond (Loc N) (SharedBuffer × Record N) :=
  .ofMemory (fun _ => True) (fun _ _ => True) Relies

theorem Consumer.head_relies (l : Consumer) (buf : SharedBuffer) : Relies (head l) buf := by
  rcases l.loop_pc .lockAcquire .signalCompleted with h | h <;> rw [Relies, head, h] <;> trivial

/-- Every action keeps what its child relies on. -/
theorem respects (p : Child N) (l : Loc N p) :
    (noted N p l).Respects (fun _ => True) (fun _ _ => True) (Relies p) l := by
  cases p with
  | inl i =>
      obtain ⟨pc, d, c⟩ := l
      cases pc with
      | store => exact fun _ _ _ => ⟨trivial, trivial⟩
      | lockAcquire => exact fun _ _ => trivial
      | waitEmptySlot => exact fun _ _ _ => trivial
      | signalFullSlot => exact fun _ _ _ => trivial
      | signalCompleted => exact fun _ _ _ => trivial
      | _ => trivial
  | inr j =>
      obtain ⟨pc, d, c, e⟩ := l
      cases pc with
      | test =>
          intro x _ _
          refine ⟨trivial, ?_⟩
          change Consumer.Relies ⟨ite _ _ _, d, c, e⟩ x.1
          split_ifs with he
          · exact he
          · trivial
      | remove => exact fun _ _ _ => ⟨trivial, trivial⟩
      | lockAcquire => exact fun _ _ => trivial
      | waitFullSlot => exact fun _ _ hr => hr
      | signalEmptySlot => exact fun x _ _ => Consumer.head_relies _ x.1
      | signalCompleted => exact fun _ _ _ => trivial
      | _ => trivial

variable {s : State N}

theorem reachable_safety (h : (system N).Reachable s) : (safety N).Holds .lock s :=
  (Outline.ofMemory_valid trivial respects).reachable_holds begin_fresh disciplined
    (fun _ => rfl) begin_outside h

theorem reachable_lock (h : (system N).Reachable s) : s.Guarded .lock holds :=
  Threads.reachable_guarded begin_fresh disciplined (fun _ => rfl) begin_outside h

/-- The children compute on the page only with the lock. -/
theorem compute_inside {p : Child N} {l : Loc N p} {f} (act : noted N p l = .compute f) :
    holds p l := by
  obtain ⟨g, act, -⟩ := Program.noted_compute.mp act
  cases p with
  | inl i =>
      obtain ⟨pc, d, c⟩ := l
      cases pc <;> cases act
      rfl
  | inr j =>
      obtain ⟨pc, d, c, e⟩ := l
      cases pc <;> cases act
      all_goals rfl

/-- A child that is about to compute has what it relies on. -/
theorem relies_compute (h : (system N).Reachable s) {p : Child N} {f}
    (act : noted N p (s.loc p) = .compute f) : Relies p (s.loc p) s.mem :=
  ((reachable_safety h).inside (reachable_lock h)
    ((Threads.reachable_coherent begin_fresh h).outside act) (compute_inside act)).2

/-! ### What each child knows of its items -/

theorem Producer.head_knows {l : Producer} {mine : List Char} (hn : l.pDepot.nums = digits)
    (hm : mine = digits.take l.pDepot.index) (hi : l.pDepot.index ≤ 10) :
    (head l).Knows places mine :=
  .loop hn hm hi rfl rfl rfl rfl

theorem Consumer.head_knows {l : Consumer} {mine : List Char}
    (hm : mine = digits.take l.cDepot.index) (hi : l.cDepot.index ≤ 10) :
    (head l).Knows places mine :=
  .loop hm hi rfl rfl rfl rfl

/-- A call of the producer keeps what it knows. -/
theorem Producer.call_knows {l l' : Producer} {mine : List Char} (h : l.Knows places mine)
    {c : Call (Child N) Sem Lock Cond} (act : action l = .call c l') : l'.Knows places mine := by
  obtain ⟨pc, d, p⟩ := l
  cases pc <;> cases act
  case signalFullSlot =>
    have hi := index_lt (h.busy rfl)
    exact head_knows h.nums h.mine hi
  all_goals exact h.move rfl rfl

/-- A call of the consumer keeps what it knows. -/
theorem Consumer.call_knows {l l' : Consumer} {mine : List Char} (h : l.Knows places mine)
    {c : Call (Child N) Sem Lock Cond} (act : action l = .call c l') : l'.Knows places mine := by
  obtain ⟨pc, d, p, e⟩ := l
  cases pc <;> cases act
  case signalEmptySlot =>
    have hi := index_lt (h.seeks rfl)
    exact head_knows h.mine hi
  case lockReleaseElse => exact head_knows h.mine h.le
  all_goals exact h.move rfl (by simp [places]) (by simp [places])

theorem Producer.compute_knows {l : Producer} {i : Fin N} {x : SharedBuffer × Record N}
    (h : l.Knows places (x.2.insertedBy i)) {f : SharedBuffer → Producer × SharedBuffer}
    (act : action (N := N) l = .compute f) :
    (f x.1).1.Knows places ((places.note (producer i) l x.1 x.2).insertedBy i) := by
  obtain ⟨pc, d, p⟩ := l
  cases pc <;> cases act
  exact h.store rfl rfl rfl rfl x.1

theorem Consumer.compute_knows {l : Consumer} {j : Fin N} {x : SharedBuffer × Record N}
    (h : l.Knows places (x.2.removedBy j)) (hr : Relies l x.1)
    {f : SharedBuffer → Consumer × SharedBuffer} (act : action (N := N) l = .compute f) :
    (f x.1).1.Knows places ((places.note (consumer j) l x.1 x.2).removedBy j) := by
  obtain ⟨pc, d, p, e⟩ := l
  cases pc <;> cases act
  case test =>
    change Consumer.Knows places ⟨ite _ _ _, d, p, e⟩ (x.2.removedBy j)
    split_ifs
    · exact h.move rfl (fun _ => rfl) (by simp [places])
    · exact h.move rfl (fun _ => rfl) (by simp [places])
  case remove => exact h.remove rfl rfl rfl rfl hr

theorem reachable_knows (h : (system N).Reachable s) (p : Child N) :
    places.Knows p (s.loc p) s.mem := by
  refine places.reachable_knows (fun p => ?_) (fun p l l' c x act hk => ?_)
    (fun s p f hr outside act hk => ?_) h p
  · cases p with
    | inl i => exact Producer.head_knows (l := ⟨.finished, .full, nul⟩) rfl rfl (Nat.zero_le 10)
    | inr j => exact Consumer.head_knows (l := ⟨.finished, .empty, nul, '0'⟩) rfl (Nat.zero_le 10)
  · cases p with
    | inl i => exact Producer.call_knows hk act
    | inr j => exact Consumer.call_knows hk act
  · have hrel := relies_compute hr (Program.noted_compute.mpr ⟨f, act, rfl⟩)
    cases p with
    | inl i => exact Producer.compute_knows hk act
    | inr j => exact Consumer.compute_knows hk hrel act

/-! ### What the semaphores count -/

/-- The producer has come through its wait for an empty slot. -/
def ProducerPc.reserved : ProducerPc → Bool
  | .lockAcquire => true
  | .store => true
  | .lockRelease => true
  | .signalFullSlot => true
  | _ => false

/-- The consumer has come through its wait for a full slot. -/
def ConsumerPc.reserved : ConsumerPc → Bool
  | .remove => true
  | .lockRelease => true
  | .signalEmptySlot => true
  | _ => false

/-- How often a child has signalled a semaphore of the page. -/
def posted : Sem → (p : Child N) → Loc N p → ℕ
  | .fullslots, .inl _, l => l.pDepot.index
  | .emptyslots, .inr _, l => l.cDepot.index
  | _, _, _ => 0

/-- How often a child has come through a wait at a semaphore of the page. -/
def taken : Sem → (p : Child N) → Loc N p → ℕ
  | .emptyslots, .inl _, l => l.pDepot.index + l.pc.reserved.toNat
  | .fullslots, .inr _, l => l.cDepot.index + l.pc.reserved.toNat
  | _, _, _ => 0

theorem Producer.head_reserved (l : Producer) : (head l).pc.reserved = false := by
  rcases l.loop_pc .waitEmptySlot .signalCompleted with h | h <;> rw [head, h] <;> rfl

theorem Consumer.head_reserved (l : Consumer) : (head l).pc.reserved = false := by
  rcases l.loop_pc .lockAcquire .signalCompleted with h | h <;> rw [head, h] <;> rfl

theorem Producer.call_counts {t : Sem} (ht : t ≠ .procsCompleted) {i : Fin N} {l l' : Producer}
    {c : Call (Child N) Sem Lock Cond} (act : action l = .call c l') :
    posted t (producer i) l' = posted t (producer i) l + (if c = .semSignal t then 1 else 0) ∧
      taken t (producer i) l' = taken t (producer i) l + (if c = .semWait t then 1 else 0) := by
  obtain ⟨pc, d, p⟩ := l
  cases pc <;> cases act
  case signalFullSlot =>
    cases t <;> simp [posted, taken, head_reserved, Depot.advance]
    rfl
  all_goals cases t <;> simp [posted, taken, ProducerPc.reserved] at ht ⊢

theorem Consumer.call_counts {t : Sem} (ht : t ≠ .procsCompleted) {j : Fin N} {l l' : Consumer}
    {c : Call (Child N) Sem Lock Cond} (act : action l = .call c l') :
    posted t (consumer j) l' = posted t (consumer j) l + (if c = .semSignal t then 1 else 0) ∧
      taken t (consumer j) l' = taken t (consumer j) l + (if c = .semWait t then 1 else 0) := by
  obtain ⟨pc, d, p, e⟩ := l
  cases pc <;> cases act
  case signalEmptySlot =>
    cases t <;> simp [posted, taken, head_reserved, Depot.advance, Depot.put]
    rfl
  case lockReleaseElse =>
    cases t <;> simp [posted, taken, head_reserved]
    rfl
  all_goals cases t <;> simp [posted, taken, ConsumerPc.reserved] at ht ⊢

theorem Producer.compute_counts {t : Sem} {i : Fin N} {l : Producer} {buf : SharedBuffer}
    {f : SharedBuffer → Producer × SharedBuffer} (act : action (N := N) l = .compute f) :
    posted t (producer i) (f buf).1 = posted t (producer i) l ∧
      taken t (producer i) (f buf).1 = taken t (producer i) l := by
  obtain ⟨pc, d, p⟩ := l
  cases pc <;> cases act
  cases t <;> exact ⟨rfl, rfl⟩

theorem Consumer.compute_counts {t : Sem} {j : Fin N} {l : Consumer} {buf : SharedBuffer}
    {f : SharedBuffer → Consumer × SharedBuffer} (act : action (N := N) l = .compute f) :
    posted t (consumer j) (f buf).1 = posted t (consumer j) l ∧
      taken t (consumer j) (f buf).1 = taken t (consumer j) l := by
  obtain ⟨pc, d, p, e⟩ := l
  cases pc <;> cases act
  case test =>
    dsimp only
    split_ifs <;> cases t <;> exact ⟨rfl, rfl⟩
  case remove => cases t <;> exact ⟨rfl, rfl⟩

/-- The places of the children tell how often the semaphores of the page have been signalled and
waited at. -/
theorem counts {t : Sem} (ht : t ≠ .procsCompleted) : (noted N).Counts t (posted t) (taken t) := by
  constructor
  case call =>
    intro p l c l' act
    have act := Program.noted_call.mp act
    cases p with
    | inl i => exact Producer.call_counts ht act
    | inr j => exact Consumer.call_counts ht act
  case compute =>
    intro p l f m act
    obtain ⟨g, act', rfl⟩ := Program.noted_compute.mp act
    cases p with
    | inl i => exact Producer.compute_counts act'
    | inr j => exact Consumer.compute_counts act'

theorem begin_posted (t : Sem) (p : Child N) : posted t p ((begin N).loc p) = 0 := by
  cases p <;> cases t <;> rfl

theorem begin_taken (t : Sem) (p : Child N) : taken t p ((begin N).loc p) = 0 := by
  cases p <;> cases t <;> rfl

/-- The producers that have come through their wait are no more than the slots that are empty or
have been emptied. -/
theorem sum_reserved_le (h : (system N).Reachable s) :
    ∑ i, ((s.producerAt i).pDepot.index + (s.producerAt i).pc.reserved.toNat) ≤
      bufferSize + ∑ j, (s.consumerAt j).cDepot.index := by
  have := Threads.sum_taken_le begin_fresh (counts (t := .emptyslots) (by simp)) (begin_posted _)
    (begin_taken _) (Int.natCast_nonneg bufferSize) h
  rw [Fintype.sum_sum_type, Fintype.sum_sum_type] at this
  simp only [posted, taken, Finset.sum_const_zero, add_zero, zero_add] at this
  have hz : (begin N).session.mon.count .emptyslots = bufferSize := rfl
  rw [hz] at this
  exact_mod_cast this

/-- The consumers that have come through their wait are no more than the slots that have been
filled. -/
theorem sum_claimed_le (h : (system N).Reachable s) :
    ∑ j, ((s.consumerAt j).cDepot.index + (s.consumerAt j).pc.reserved.toNat) ≤
      ∑ i, (s.producerAt i).pDepot.index := by
  have := Threads.sum_taken_le begin_fresh (counts (t := .fullslots) (by simp)) (begin_posted _)
    (begin_taken _) le_rfl h
  rw [Fintype.sum_sum_type, Fintype.sum_sum_type] at this
  simp only [posted, taken, Finset.sum_const_zero, add_zero, zero_add] at this
  have hz : (begin N).session.mon.count .fullslots = 0 := rfl
  rw [hz, zero_add] at this
  exact_mod_cast this

/-- When everybody that waits for an empty slot sleeps, and somebody does, no slot is left. -/
theorem sum_reserved_eq (h : (system N).Reachable s)
    (asleep : ∀ p, s.session.pending p = some (.semWait .emptyslots) → ¬ s.session.Awake p)
    (hq : s.session.mon.waiting (.sem .emptyslots) ≠ []) :
    ∑ i, ((s.producerAt i).pDepot.index + (s.producerAt i).pc.reserved.toNat) =
      bufferSize + ∑ j, (s.consumerAt j).cDepot.index := by
  have := Threads.sum_taken_eq begin_fresh (counts (t := .emptyslots) (by simp)) (begin_posted _)
    (begin_taken _) (Int.natCast_nonneg bufferSize) h asleep hq
  rw [Fintype.sum_sum_type, Fintype.sum_sum_type] at this
  simp only [posted, taken, Finset.sum_const_zero, add_zero, zero_add] at this
  have hz : (begin N).session.mon.count .emptyslots = bufferSize := rfl
  rw [hz] at this
  exact_mod_cast this

/-- When everybody that waits for a full slot sleeps, and somebody does, no item is left. -/
theorem sum_claimed_eq (h : (system N).Reachable s)
    (asleep : ∀ p, s.session.pending p = some (.semWait .fullslots) → ¬ s.session.Awake p)
    (hq : s.session.mon.waiting (.sem .fullslots) ≠ []) :
    ∑ j, ((s.consumerAt j).cDepot.index + (s.consumerAt j).pc.reserved.toNat) =
      ∑ i, (s.producerAt i).pDepot.index := by
  have := Threads.sum_taken_eq begin_fresh (counts (t := .fullslots) (by simp)) (begin_posted _)
    (begin_taken _) le_rfl h asleep hq
  rw [Fintype.sum_sum_type, Fintype.sum_sum_type] at this
  simp only [posted, taken, Finset.sum_const_zero, add_zero, zero_add] at this
  have hz : (begin N).session.mon.count .fullslots = 0 := rfl
  rw [hz, zero_add] at this
  exact_mod_cast this

theorem ProducerPc.stored_le (pc : ProducerPc) : (places.stored pc).toNat ≤ pc.reserved.toNat := by
  cases pc <;> decide

theorem ConsumerPc.taken_le (pc : ConsumerPc) : (places.taken pc).toNat ≤ pc.reserved.toNat := by
  cases pc <;> decide

/-- At a store the ring has an empty slot. -/
theorem store_room (h : (system N).Reachable s) {i : Fin N} (hpc : (s.producerAt i).pc = .store) :
    s.record.inserted.length < s.record.removed.length + bufferSize := by
  obtain ⟨hi, hr⟩ := places.sum_knows (reachable_knows h)
  have made : ∑ k, places.made (s.producerAt k) <
      ∑ k, ((s.producerAt k).pDepot.index + (s.producerAt k).pc.reserved.toNat) := by
    refine Finset.sum_lt_sum (fun k _ => ?_) ⟨i, Finset.mem_univ i, ?_⟩
    · exact Nat.add_le_add_left (ProducerPc.stored_le _) _
    · rw [Places.made, hpc]
      exact Nat.lt_succ_self _
  have gone : ∑ j, (s.consumerAt j).cDepot.index ≤ ∑ j, places.gone (s.consumerAt j) :=
    Finset.sum_le_sum fun j _ => Nat.le_add_right ..
  have bound := sum_reserved_le h
  change ∑ k, places.made (s.producerAt k) = s.record.inserted.length at hi
  change ∑ k, places.gone (s.consumerAt k) = s.record.removed.length at hr
  omega

/-- At a removal the ring holds an item. -/
theorem remove_stocked (h : (system N).Reachable s) {j : Fin N}
    (hpc : (s.consumerAt j).pc = .remove) :
    s.record.removed.length < s.record.inserted.length := by
  obtain ⟨hi, hr⟩ := places.sum_knows (reachable_knows h)
  have gone : ∑ k, places.gone (s.consumerAt k) <
      ∑ k, ((s.consumerAt k).cDepot.index + (s.consumerAt k).pc.reserved.toNat) := by
    refine Finset.sum_lt_sum (fun k _ => ?_) ⟨j, Finset.mem_univ j, ?_⟩
    · exact Nat.add_le_add_left (ConsumerPc.taken_le _) _
    · rw [Places.gone, hpc]
      exact Nat.lt_succ_self _
  have made : ∑ k, (s.producerAt k).pDepot.index ≤ ∑ k, places.made (s.producerAt k) :=
    Finset.sum_le_sum fun k _ => Nat.le_add_right ..
  have bound := sum_claimed_le h
  change ∑ k, places.made (s.producerAt k) = s.record.inserted.length at hi
  change ∑ k, places.gone (s.consumerAt k) = s.record.removed.length at hr
  omega

/-- The ring holds the items recorded in every reachable state. -/
theorem reachable_fits (h : (system N).Reachable s) : s.record.Fits (fun _ => nul) s.buf := by
  refine h.invariant (P := fun s => s.record.Fits (fun _ => nul) s.buf)
    (fun t (e : t = begin N) => ?_) fun t p t' hr ih h => ?_
  · subst e
    exact .start _
  · cases h with
    | compute outside act =>
        obtain ⟨g, act', rfl⟩ := Program.noted_compute.mp act
        cases p with
        | inl i =>
            have room := store_room hr (i := i)
            change Producer.action (t.producerAt i) = _ at act'
            change Record.Fits (places.note (producer i) (t.producerAt i) t.buf t.record) _
              (g t.buf).2
            generalize t.producerAt i = l at act' room
            obtain ⟨pc, d, c⟩ := l
            cases pc <;> cases act'
            exact ih.store (room rfl) i c
        | inr j =>
            have stocked := remove_stocked hr (j := j)
            change Consumer.action (t.consumerAt j) = _ at act'
            change Record.Fits (places.note (consumer j) (t.consumerAt j) t.buf t.record) _
              (g t.buf).2
            generalize t.consumerAt j = l at act' stocked
            obtain ⟨pc, d, c, e⟩ := l
            cases pc <;> cases act'
            · exact ih
            · exact ih.remove (stocked rfl) j
    | _ => exact ih

theorem Consumer.relies_remove (h : (system N).Reachable s) {j : Fin N}
    (hpc : (s.consumerAt j).pc = .remove) : s.buf.head = (s.consumerAt j).expectedItem := by
  obtain ⟨f, act⟩ : ∃ f, noted N (.inr j) (s.loc (.inr j)) = .compute f :=
    ⟨_, Program.noted_compute.mpr ⟨_, by simp only [program, action, hpc]; rfl, rfl⟩⟩
  have hr : Relies (s.consumerAt j) s.buf := relies_compute h act
  rwa [Relies, hpc] at hr

/-- A store hits no slot whose item has not been removed, at most 32 items are in the ring, a
consumer past its wait removes the oldest item, which is the one it expects, the items are removed
in the order in which they were inserted, and each consumer removes the digits in order. -/
theorem semaphore_ring_is_safe (h : (system N).Reachable s) :
    (∀ i, (s.producerAt i).pc = .store → ∀ e ∈ s.record.unconsumed, e.slot ≠ s.buf.wIdx) ∧
    s.record.unconsumed.length ≤ bufferSize ∧
    (∀ j, (s.consumerAt j).pc = .remove → ∃ e, s.record.unconsumed.head? = some e ∧
      e.slot = s.buf.rIdx ∧ e.item = s.buf.head ∧ s.buf.head = (s.consumerAt j).expectedItem) ∧
    s.record.removed.map Entry.item <+: s.record.inserted.map Entry.item ∧
    ∀ j, s.record.removedBy j <+: digits := by
  have hf := reachable_fits h
  refine ⟨fun i hpc => ?_, ?_, fun j hpc => ?_, hf.order, fun j => ?_⟩
  · exact hf.unconsumed_slot (store_room h hpc)
  · have := hf.fits
    rw [Record.unconsumed, List.length_drop]
    omega
  · have hlt := remove_stocked h hpc
    refine ⟨_, ?_, (hf.head hlt).2, (hf.head hlt).1, Consumer.relies_remove h hpc⟩
    rw [Record.unconsumed, List.head?_drop, List.getElem?_eq_getElem hlt]
  · exact Consumer.Knows.isPrefix (reachable_knows h (consumer j))

/-- The first store of one pair. -/
theorem semaphore_ring_is_safe_first_store : ∃ s : State 1, (system 1).Reachable s ∧
    (s.producerAt 0).pc = .store ∧ s.record.unconsumed.length ≤ bufferSize := by
  have h₁ := (Transition.System.Reachable.init (M := system 1) rfl).step
    (.pass (p := producer 0) (c := .semWait .emptyslots) (r := true) rfl rfl rfl rfl)
  have h₂ := h₁.step (.pass (p := producer 0) (c := .acquire .lock) (r := true) rfl rfl rfl rfl)
  exact ⟨_, h₂, rfl, (semaphore_ring_is_safe h₂).2.1⟩

end DlxOs.Apps.Q3
