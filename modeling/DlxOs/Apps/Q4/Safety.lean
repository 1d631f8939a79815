import DlxOs.Apps.Q4.Program

/-!
# Safety of the ring buffer with condition variables

The programs wait with `if` and test nothing after `cond_wait`. A signaller
leaves the ring as the woken child needs it and hands it the lock, and nobody
gets in between. So what was tested holds whenever an item is stored, looked
at or removed.
-/

namespace DlxOs.Apps.Q4

open Monitors

variable {N : ℕ}

/-- The page starts with zeros. -/
abbrev RingOk (x : SharedBuffer × Record N) : Prop := Apps.RingOk (fun _ => nul) x

/-- What the producer inside may rely on. -/
def Producer.Relies (l : Producer) (o : Record N) : Prop :=
  match l.pc with
  | .waitNotFull => ¬ Room o
  | .store => Room o
  | .signalNotEmpty => Stocked o
  | _ => True

/-- What the consumer inside may rely on. -/
def Consumer.Relies (l : Consumer) (x : SharedBuffer × Record N) : Prop :=
  match l.pc with
  | .waitNotEmpty => ¬ Stocked x.2
  | .look => Stocked x.2
  | .remove => Stocked x.2 ∧ x.1.head = l.expectedItem
  | .signalNotFull => Room x.2
  | _ => True

/-- What a signaller promises. -/
def Promise (c : Cond) (x : SharedBuffer × Record N) : Prop :=
  match c with
  | .notFull => Room x.2
  | .notEmpty => Stocked x.2

def Relies : (p : Child N) → Loc N p → SharedBuffer × Record N → Prop
  | .inl _, l, x => Producer.Relies l x.2
  | .inr _, l, x => Consumer.Relies l x

/-- Whoever waits for room is woken with room, and whoever waits for an item with an item. -/
def safety (N : ℕ) : Outline (Child N) Cond (Loc N) (SharedBuffer × Record N) :=
  .ofMemory RingOk Promise Relies

/-- Every action keeps the ring and what its child relies on. -/
theorem respects (p : Child N) (l : Loc N p) :
    (noted N p l).Respects RingOk Promise (Relies p) l := by
  cases p with
  | inl i =>
      obtain ⟨pc, d, c⟩ := l
      cases pc with
      | test =>
          intro x hx hr
          refine ⟨hx, ?_⟩
          change Producer.Relies ⟨ite _ _ _, d, c⟩ x.2
          split_ifs with e
          · exact fun hr => hx.room_iff.mp hr e
          · exact hx.room_iff.mpr e
      | store => exact fun x hx hr => hx.store hr i c
      | waitNotFull => exact fun x hx hr => hr
      | signalNotEmpty => exact fun x hx => ⟨trivial, id⟩
      | lockRelease => trivial
      | finished => trivial
      | lockAcquire => exact fun _ _ => trivial
      | signalCompleted => exact fun _ _ => id
  | inr j =>
      obtain ⟨pc, d, c, e⟩ := l
      cases pc with
      | test =>
          intro x hx hr
          refine ⟨hx, ?_⟩
          change Consumer.Relies ⟨ite _ _ _, d, c, e⟩ x
          split_ifs with e
          · exact fun hr => hx.stocked_iff.mp hr e
          · exact hx.stocked_iff.mpr e
      | look =>
          intro x hx hr
          refine ⟨hx, ?_⟩
          change Consumer.Relies ⟨ite _ _ _, d, c, e⟩ x
          split_ifs with e
          · trivial
          · exact ⟨hr, not_not.mp e⟩
      | remove => exact fun x hx hr => hx.remove hr.1 j
      | waitNotEmpty => exact fun x hx hr => hr
      | signalNotFull => exact fun x hx => ⟨trivial, id⟩
      | lockRelease => trivial
      | finished => trivial
      | lockAcquire => exact fun _ _ => trivial
      | signalCompleted => exact fun _ _ => id

variable {s : State N}

theorem reachable_safety (h : (system N).Reachable s) : (safety N).Holds .lock s :=
  (Outline.ofMemory_valid (Apps.RingOk.start _) respects).reachable_holds begin_fresh
    disciplined (fun _ => rfl) begin_outside h

theorem reachable_lock (h : (system N).Reachable s) : s.Guarded .lock holds :=
  Threads.reachable_guarded begin_fresh disciplined (fun _ => rfl) begin_outside h

/-- The children compute on the page only with the lock. -/
theorem compute_inside {p : Child N} {l : Loc N p} {f} (act : noted N p l = .compute f) :
    holds p l := by
  obtain ⟨g, act, -⟩ := Program.noted_compute.mp act
  cases p with
  | inl i =>
      obtain ⟨pc, d, c⟩ := l
      cases pc <;> cases act
      all_goals rfl
  | inr j =>
      obtain ⟨pc, d, c, e⟩ := l
      cases pc <;> cases act
      all_goals rfl

/-- A child with the lock has what it relies on. -/
theorem relies (h : (system N).Reachable s) {p : Child N} (outside : s.session.pending p = none)
    (hh : holds p (s.loc p)) : RingOk s.mem ∧ Relies p (s.loc p) s.mem :=
  (reachable_safety h).inside (reachable_lock h) outside hh

/-! ### What each child knows of its items -/

theorem Producer.head_knows {l : Producer} {mine : List Char} (hn : l.pDepot.nums = digits)
    (hm : mine = digits.take l.pDepot.index) (hi : l.pDepot.index ≤ 10) :
    (head l).Knows places mine :=
  .loop hn hm hi rfl rfl rfl rfl

theorem Consumer.head_knows {l : Consumer} {mine : List Char}
    (hm : mine = digits.take l.cDepot.index) (hi : l.cDepot.index ≤ 10) :
    (head l).Knows places mine :=
  .loop hm hi rfl rfl rfl rfl

/-- A call of the producer keeps what it knows. -/
theorem Producer.call_knows {l l' : Producer} {mine : List Char} (h : l.Knows places mine)
    {c : Call (Child N) Sem Lock Cond} (act : action l = .call c l') : l'.Knows places mine := by
  obtain ⟨pc, d, p⟩ := l
  cases pc <;> cases act
  case lockRelease =>
    have hi := index_lt (h.busy rfl)
    exact head_knows h.nums h.mine hi
  all_goals exact h.move rfl rfl

/-- A call of the consumer keeps what it knows. -/
theorem Consumer.call_knows {l l' : Consumer} {mine : List Char} (h : l.Knows places mine)
    {c : Call (Child N) Sem Lock Cond} (act : action l = .call c l') : l'.Knows places mine := by
  obtain ⟨pc, d, p, e⟩ := l
  cases pc <;> cases act
  case lockRelease => exact head_knows h.mine h.le
  case signalNotFull => exact ⟨h.mine, h.le, by simp [places], by simp [places]⟩
  all_goals exact h.move rfl (by simp [places]) (by simp [places])

theorem Producer.compute_knows {l : Producer} {i : Fin N} {x : SharedBuffer × Record N}
    (h : l.Knows places (x.2.insertedBy i)) {f : SharedBuffer → Producer × SharedBuffer}
    (act : action (N := N) l = .compute f) :
    (f x.1).1.Knows places ((places.note (producer i) l x.1 x.2).insertedBy i) := by
  obtain ⟨pc, d, p⟩ := l
  cases pc <;> cases act
  case test =>
    change Producer.Knows places ⟨ite _ _ _, d, p⟩ (x.2.insertedBy i)
    split_ifs
    · exact h.move rfl rfl
    · exact h.move rfl rfl
  case store => exact h.store rfl rfl rfl rfl x.1

theorem Consumer.compute_knows {l : Consumer} {j : Fin N} {x : SharedBuffer × Record N}
    (h : l.Knows places (x.2.removedBy j)) (hr : Relies l x)
    {f : SharedBuffer → Consumer × SharedBuffer} (act : action (N := N) l = .compute f) :
    (f x.1).1.Knows places ((places.note (consumer j) l x.1 x.2).removedBy j) := by
  obtain ⟨pc, d, p, e⟩ := l
  cases pc <;> cases act
  case test =>
    change Consumer.Knows places ⟨ite _ _ _, d, p, e⟩ (x.2.removedBy j)
    split_ifs
    · exact h.move rfl (fun _ => rfl) (by simp [places])
    · exact h.move rfl (fun _ => rfl) (by simp [places])
  case look =>
    change Consumer.Knows places ⟨ite _ _ _, d, p, e⟩ (x.2.removedBy j)
    split_ifs
    · exact h.move rfl (fun _ => rfl) (by simp [places])
    · exact h.move rfl (fun _ => rfl) (by simp [places])
  case remove => exact h.remove rfl rfl rfl rfl hr.2

theorem reachable_knows (h : (system N).Reachable s) (p : Child N) :
    places.Knows p (s.loc p) s.mem := by
  refine places.reachable_knows (fun p => ?_) (fun p l l' c x act hk => ?_)
    (fun s p f hr outside act hk => ?_) h p
  · cases p with
    | inl i => exact Producer.head_knows (l := ⟨.finished, .full, nul⟩) rfl rfl (Nat.zero_le 10)
    | inr j => exact Consumer.head_knows (l := ⟨.finished, .empty, nul, '0'⟩) rfl (Nat.zero_le 10)
  · cases p with
    | inl i => exact Producer.call_knows hk act
    | inr j => exact Consumer.call_knows hk act
  · have hc : noted N p (s.loc p) = .compute _ := Program.noted_compute.mpr ⟨f, act, rfl⟩
    obtain ⟨-, hrel⟩ := relies hr outside (compute_inside hc)
    cases p with
    | inl i => exact Producer.compute_knows hk act
    | inr j => exact Consumer.compute_knows hk hrel act

/-- The ring is sound in every reachable state. -/
theorem reachable_ring (h : (system N).Reachable s) : RingOk s.mem :=
  (reachable_safety h).memory

/-- A child that is about to compute has what it relies on. -/
theorem relies_compute (h : (system N).Reachable s) {p : Child N}
    {f : SharedBuffer × Record N → Loc N p × (SharedBuffer × Record N)}
    (act : noted N p (s.loc p) = .compute f) : Relies p (s.loc p) s.mem :=
  (relies h ((Threads.reachable_coherent begin_fresh h).outside act) (compute_inside act)).2

theorem Producer.relies_store (h : (system N).Reachable s) {i : Fin N}
    (hpc : (s.producerAt i).pc = .store) : Room s.record := by
  obtain ⟨f, act⟩ : ∃ f, noted N (.inl i) (s.loc (.inl i)) = .compute f :=
    ⟨_, Program.noted_compute.mpr ⟨_, by simp only [program, action, hpc]; rfl, rfl⟩⟩
  have hr : Relies (s.producerAt i) s.record := relies_compute h act
  rwa [Relies, hpc] at hr

theorem Consumer.relies_head (h : (system N).Reachable s) {j : Fin N}
    (hpc : (s.consumerAt j).pc = .look ∨ (s.consumerAt j).pc = .remove) : Stocked s.record := by
  obtain ⟨f, act⟩ : ∃ f, noted N (.inr j) (s.loc (.inr j)) = .compute f := by
    rcases hpc with hpc | hpc
    · exact ⟨_, Program.noted_compute.mpr ⟨_, by simp only [program, action, hpc]; rfl, rfl⟩⟩
    · exact ⟨_, Program.noted_compute.mpr ⟨_, by simp only [program, action, hpc]; rfl, rfl⟩⟩
  have hr : Relies (s.consumerAt j) s.mem := relies_compute h act
  rcases hpc with hpc | hpc
  · rwa [Relies, hpc] at hr
  · rw [Relies, hpc] at hr
    exact hr.1

/-- An item is only stored into a free slot of a ring that is not full; the head is only looked at
in a ring that is not empty; the items are removed in the order in which they were inserted, and
each consumer removes the digits in order. -/
theorem ring_is_safe (h : (system N).Reachable s) :
    (∀ i, (s.producerAt i).pc = .store →
      (s.buf.wIdx + 1) % bufferSize ≠ s.buf.rIdx ∧ ∀ e ∈ s.record.unconsumed, e.slot ≠ s.buf.wIdx) ∧
    (∀ j, (s.consumerAt j).pc = .look ∨ (s.consumerAt j).pc = .remove →
      s.buf.wIdx ≠ s.buf.rIdx) ∧
    s.record.removed.map Entry.item <+: s.record.inserted.map Entry.item ∧
    ∀ j, s.record.removedBy j <+: digits := by
  have hok := reachable_ring h
  refine ⟨fun i hpc => ⟨?_, ?_⟩, fun j hpc => ?_, hok.fits.order, fun j => ?_⟩
  · exact hok.room_iff.mp (Producer.relies_store h hpc)
  · exact hok.fits.unconsumed_slot hok.lt
  · exact hok.stocked_iff.mp (Consumer.relies_head h hpc)
  · exact Consumer.Knows.isPrefix (reachable_knows h (consumer j))

/-- The producer of one pair comes to its store, and the ring is not full. -/
theorem ring_is_safe_first_store : ∃ s : State 1, (system 1).Reachable s ∧
    (s.producerAt 0).pc = .store ∧ (s.buf.wIdx + 1) % bufferSize ≠ s.buf.rIdx := by
  have h₁ := (Transition.System.Reachable.init (M := system 1) rfl).step
    (.pass (p := producer 0) (c := .acquire .lock) (r := true) rfl rfl rfl rfl)
  have h₂ := h₁.step (.compute (p := producer 0) rfl rfl)
  exact ⟨_, h₂, rfl, ((ring_is_safe h₂).1 0 rfl).1⟩

end DlxOs.Apps.Q4
