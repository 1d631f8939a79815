import DlxOs.Apps.Q2.Program
import DlxOs.Library.Execution

/-!
# The ring buffer with a lock loses nothing

The ring holds the items inserted and not removed, and one slot is always left.
Every consumer removes the digits in order, and the producers merge the same
sequences, so whatever item is at the head, some consumer has it next.
-/

namespace DlxOs.Apps.Q2

open Monitors

variable {N : ℕ} {first : ℕ → Char}

/-- What the producer inside may rely on. -/
def Producer.Relies (l : Producer) (o : Record N) : Prop :=
  match l.pc with
  | .store => Room o
  | _ => True

/-- What the consumer inside may rely on. -/
def Consumer.Relies (l : Consumer) (x : SharedBuffer × Record N) : Prop :=
  match l.pc with
  | .look => Stocked x.2
  | .remove => Stocked x.2 ∧ x.1.head = l.expectedItem
  | _ => True

def Relies : (p : Child N) → Loc N p → SharedBuffer × Record N → Prop
  | .inl _, l, x => Producer.Relies l x.2
  | .inr _, l, x => Consumer.Relies l x

/-- The ring is sound, and whoever is inside has tested it. -/
def safety (N : ℕ) (first : ℕ → Char) : Outline (Child N) Cond (Loc N) (SharedBuffer × Record N) :=
  .ofMemory (RingOk first) (fun _ _ => True) Relies

/-- Every action keeps the ring and what its child relies on. -/
theorem respects (p : Child N) (l : Loc N p) :
    (noted N p l).Respects (RingOk first) (fun _ _ => True) (Relies p) l := by
  cases p with
  | inl i =>
      obtain ⟨pc, d, c⟩ := l
      cases pc with
      | test =>
          intro x hx _
          refine ⟨hx, ?_⟩
          change Producer.Relies ⟨ite _ _ _, d, c⟩ x.2
          split_ifs with e
          · trivial
          · exact hx.room_iff.mpr e
      | store => exact fun x hx hr => ⟨(hx.store hr i c).1, trivial⟩
      | lockAcquire => exact fun _ _ => trivial
      | signalCompleted => exact fun _ _ _ => trivial
      | _ => trivial
  | inr j =>
      obtain ⟨pc, d, c, e⟩ := l
      cases pc with
      | test =>
          intro x hx _
          refine ⟨hx, ?_⟩
          change Consumer.Relies ⟨ite _ _ _, d, c, e⟩ x
          split_ifs with he
          · trivial
          · exact hx.stocked_iff.mpr he
      | look =>
          intro x hx hr
          refine ⟨hx, ?_⟩
          change Consumer.Relies ⟨ite _ _ _, d, c, e⟩ x
          split_ifs with he
          · exact ⟨hr, he⟩
          · trivial
      | remove => exact fun x hx hr => ⟨(hx.remove hr.1 j).1, trivial⟩
      | lockAcquire => exact fun _ _ => trivial
      | signalCompleted => exact fun _ _ _ => trivial
      | _ => trivial

variable {s : State N}

theorem reachable_safety (h : (system N first).Reachable s) : (safety N first).Holds .lock s :=
  (Outline.ofMemory_valid (.start first) respects).reachable_holds begin_fresh disciplined
    (fun _ => rfl) begin_outside h

/-- The children compute on the page only with the lock. -/
theorem compute_inside {p : Child N} {l : Loc N p} {f} (act : noted N p l = .compute f) :
    holds p l := by
  obtain ⟨g, act, -⟩ := Program.noted_compute.mp act
  cases p with
  | inl i =>
      obtain ⟨pc, d, c⟩ := l
      cases pc <;> cases act
      all_goals rfl
  | inr j =>
      obtain ⟨pc, d, c, e⟩ := l
      cases pc <;> cases act
      all_goals rfl

/-- A child that is about to compute has what it relies on. -/
theorem relies_compute (h : (system N first).Reachable s) {p : Child N} {f}
    (act : noted N p (s.loc p) = .compute f) : Relies p (s.loc p) s.mem :=
  ((reachable_safety h).inside
    (Threads.reachable_guarded begin_fresh disciplined (fun _ => rfl) begin_outside h)
    ((Threads.reachable_coherent begin_fresh h).outside act) (compute_inside act)).2

/-! ### What each child knows of its items -/

theorem Producer.head_knows {l : Producer} {mine : List Char} (hn : l.pDepot.nums = digits)
    (hm : mine = digits.take l.pDepot.index) (hi : l.pDepot.index ≤ 10) :
    (head l).Knows places mine :=
  .loop hn hm hi rfl rfl rfl rfl

theorem Consumer.head_knows {l : Consumer} {mine : List Char}
    (hm : mine = digits.take l.cDepot.index) (hi : l.cDepot.index ≤ 10) :
    (head l).Knows places mine :=
  .loop hm hi rfl rfl rfl rfl

/-- A call of the producer keeps what it knows. -/
theorem Producer.call_knows {l l' : Producer} {mine : List Char} (h : l.Knows places mine)
    {c : Call (Child N) Sem Lock Cond} (act : action l = .call c l') : l'.Knows places mine := by
  obtain ⟨pc, d, p⟩ := l
  cases pc <;> cases act
  case lockRelease =>
    have hi := index_lt (h.busy rfl)
    exact head_knows h.nums h.mine hi
  case lockReleaseFull => exact head_knows h.nums h.mine h.le
  all_goals exact h.move rfl rfl

/-- A call of the consumer keeps what it knows. -/
theorem Consumer.call_knows {l l' : Consumer} {mine : List Char} (h : l.Knows places mine)
    {c : Call (Child N) Sem Lock Cond} (act : action l = .call c l') : l'.Knows places mine := by
  obtain ⟨pc, d, p, e⟩ := l
  cases pc <;> cases act
  case lockRelease =>
    have hi := index_lt (h.seeks rfl)
    exact head_knows h.mine hi
  case lockReleaseEmpty => exact head_knows h.mine h.le
  case lockReleaseElse => exact head_knows h.mine h.le
  all_goals exact h.move rfl (by simp [places]) (by simp [places])

theorem Producer.compute_knows {l : Producer} {i : Fin N} {x : SharedBuffer × Record N}
    (h : l.Knows places (x.2.insertedBy i)) {f : SharedBuffer → Producer × SharedBuffer}
    (act : action (N := N) l = .compute f) :
    (f x.1).1.Knows places ((places.note (producer i) l x.1 x.2).insertedBy i) := by
  obtain ⟨pc, d, p⟩ := l
  cases pc <;> cases act
  case test =>
    change Producer.Knows places ⟨ite _ _ _, d, p⟩ (x.2.insertedBy i)
    split_ifs
    · exact h.move rfl rfl
    · exact h.move rfl rfl
  case store => exact h.store rfl rfl rfl rfl x.1

theorem Consumer.compute_knows {l : Consumer} {j : Fin N} {x : SharedBuffer × Record N}
    (h : l.Knows places (x.2.removedBy j)) (hr : Relies l x)
    {f : SharedBuffer → Consumer × SharedBuffer} (act : action (N := N) l = .compute f) :
    (f x.1).1.Knows places ((places.note (consumer j) l x.1 x.2).removedBy j) := by
  obtain ⟨pc, d, p, e⟩ := l
  cases pc <;> cases act
  case test =>
    change Consumer.Knows places ⟨ite _ _ _, d, p, e⟩ (x.2.removedBy j)
    split_ifs
    · exact h.move rfl (fun _ => rfl) (by simp [places])
    · exact h.move rfl (fun _ => rfl) (by simp [places])
  case look =>
    change Consumer.Knows places ⟨ite _ _ _, d, p, e⟩ (x.2.removedBy j)
    split_ifs
    · exact h.move rfl (fun _ => rfl) (by simp [places])
    · exact h.move rfl (fun _ => rfl) (by simp [places])
  case remove => exact h.remove rfl rfl rfl rfl hr.2

theorem reachable_knows (h : (system N first).Reachable s) (p : Child N) :
    places.Knows p (s.loc p) s.mem := by
  refine places.reachable_knows (fun p => ?_) (fun p l l' c x act hk => ?_)
    (fun s p f hr outside act hk => ?_) h p
  · cases p with
    | inl i => exact Producer.head_knows (l := ⟨.finished, .full, nul⟩) rfl rfl (Nat.zero_le 10)
    | inr j => exact Consumer.head_knows (l := ⟨.finished, .empty, nul, '0'⟩) rfl (Nat.zero_le 10)
  · cases p with
    | inl i => exact Producer.call_knows hk act
    | inr j => exact Consumer.call_knows hk act
  · have hrel := relies_compute hr (Program.noted_compute.mpr ⟨f, act, rfl⟩)
    cases p with
    | inl i => exact Producer.compute_knows hk act
    | inr j => exact Consumer.compute_knows hk hrel act

/-- When as many items have been removed as all consumers can remove, each has removed its ten. -/
theorem all_removed (h : (system N first).Reachable s)
    (hr : s.record.removed.length = 10 * N) (j : Fin N) : s.record.removedBy j = digits := by
  have hk : ∀ j, (s.consumerAt j).Knows places (s.record.removedBy j) := fun j =>
    reachable_knows h (consumer j)
  have hsum : ∑ j, places.gone (s.consumerAt j) = ∑ j : Fin N, 10 := by
    have := (places.sum_knows (reachable_knows h)).2
    change ∑ j, places.gone (s.consumerAt j) = s.record.removed.length at this
    simp [this, hr, mul_comm]
  have hten := (Finset.sum_eq_sum_iff_of_le fun j _ => (hk j).le).mp hsum j (Finset.mem_univ j)
  rw [(hk j).mine, hten]
  rfl

/-- The ring holds exactly the items inserted and not removed, in order, at most 31 of them; each
consumer removes the digits in order; the item at the head is the next digit of some consumer; and
when everything has been inserted and the ring is empty, every consumer has all ten digits. -/
theorem lock_ring_loses_nothing (h : (system N first).Reachable s) :
    (s.buf.wIdx < bufferSize ∧ s.buf.rIdx < bufferSize) ∧
    (s.record.inserted.map Entry.item = s.record.removed.map Entry.item ++ s.buf.contents ∧
      s.buf.contents.length ≤ 31) ∧
    (∀ j, s.record.removedBy j <+: digits) ∧
    (s.buf.wIdx ≠ s.buf.rIdx → ∃ j, digits[(s.record.removedBy j).length]? = some s.buf.head) ∧
    (s.record.inserted.length = 10 * N → s.buf.wIdx = s.buf.rIdx →
      ∀ j, s.record.removedBy j = digits) := by
  have hok : RingOk first s.mem := (reachable_safety h).memory
  have hk : ∀ j, (s.consumerAt j).Knows places (s.record.removedBy j) := fun j =>
    reachable_knows h (consumer j)
  refine ⟨hok.index_lt, ⟨?_, ?_⟩, fun j => (hk j).isPrefix, fun hne => ?_, fun hall he => ?_⟩
  · rw [hok.contents_eq, Record.unconsumed, List.map_drop]
    obtain ⟨rest, hrest⟩ := hok.fits.order
    change s.record.removed.map Entry.item ++ rest = s.record.inserted.map Entry.item at hrest
    rw [← hrest, List.drop_left' (List.length_map _)]
  · rw [hok.contents_eq, List.length_map]
    exact Nat.lt_succ_iff.mp hok.unconsumed_lt
  · obtain ⟨j, hj⟩ := places.exists_expecting (reachable_knows h) hok.fits
      (hok.stocked_iff.mpr hne)
    refine ⟨j, ?_⟩
    rw [(hk j).length]
    exact hj
  · refine all_removed h ?_
    have hempty : ¬ Stocked s.record := hok.stocked_iff.not.mpr (not_not.mpr he)
    have hle : s.record.removed.length ≤ s.record.inserted.length := hok.fits.le
    rw [Stocked] at hempty
    omega

/-- Two pairs on the way, and one pair at its end. -/
theorem lock_ring_loses_nothing_runs :
    (∃ s : State 2, (system 2 fun _ => 'x').Reachable s ∧ s.session.mon.owner .lock = none ∧
      s.record.removed.length = 2 ∧ s.buf.contents.length = 3 ∧
      (s.buf.wIdx < bufferSize ∧ s.buf.rIdx < bufferSize) ∧
      s.record.inserted.map Entry.item = s.record.removed.map Entry.item ++ s.buf.contents ∧
      (∀ j, s.record.removedBy j <+: digits) ∧
      ∃ j, digits[(s.record.removedBy j).length]? = some s.buf.head) ∧
    ∃ s : State 1, (system 1 fun _ => 'x').Reachable s ∧ s.record.inserted.length = 10 ∧
      s.buf.wIdx = s.buf.rIdx ∧ s.record.removedBy 0 = digits := by
  obtain ⟨s, hs, hφ⟩ := Threads.exists_of_exec (noted 2) (begin 2 fun _ => 'x')
    (φ := fun s : State 2 => decide (s.session.mon.owner .lock = none ∧
      s.record.removed.length = 2 ∧ s.buf.contents.length = 3 ∧ s.buf.wIdx ≠ s.buf.rIdx))
    (List.replicate 8 (producer 0) ++ List.replicate 12 (producer 1) ++
      List.replicate 10 (consumer 1)) (by decide)
  obtain ⟨t, ht, hψ⟩ := Threads.exists_of_exec (noted 1) (begin 1 fun _ => 'x')
    (φ := fun t : State 1 => decide (t.record.inserted.length = 10 ∧ t.buf.wIdx = t.buf.rIdx))
    (List.replicate 40 (producer 0) ++ List.replicate 50 (consumer 0)) (by decide)
  obtain ⟨free, hremoved, hlength, hne⟩ := of_decide_eq_true hφ
  obtain ⟨hall, hempty⟩ := of_decide_eq_true hψ
  obtain ⟨hidx, ⟨horder, -⟩, hdigits, hnext, -⟩ := lock_ring_loses_nothing hs
  obtain ⟨-, -, -, -, hend⟩ := lock_ring_loses_nothing ht
  exact ⟨⟨s, hs, free, hremoved, hlength, hidx, horder, hdigits, hnext hne⟩,
    t, ht, hall, hempty, hend hall hempty 0⟩

end DlxOs.Apps.Q2
