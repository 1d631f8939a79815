import DlxOs.Apps.Children
import DlxOs.Library.Retries

/-!
# Rounds of the ring buffer programs

A child goes round its loop once for every item, and more often when it has to
try again. Its level is eight for every item that is left and what is left of
the round; the next item starts a new round on a lower level.
-/

namespace DlxOs.Apps

open Monitors

variable {N : ℕ} {PP CP : Type} {again completed : PP}

/-- Eight for every item that is left to insert, and what is left of the round. -/
def Producer.level (left : PP → ℕ) (l : Producer PP) : ℕ := 8 * (10 - l.pDepot.index) + left l.pc

def Consumer.level (left : CP → ℕ) (l : Consumer CP) : ℕ := 8 * (10 - l.cDepot.index) + left l.pc

/-- The levels of the children. -/
def childLevel (producer : PP → ℕ) (consumer : CP → ℕ) : (p : Child N) → Loc N PP CP p → ℕ
  | .inl _, l => Producer.level producer l
  | .inr _, l => Consumer.level consumer l

namespace Producer

variable {left : PP → ℕ} {l : Producer PP}

/-- Trying again is no step back. -/
theorem loop_level_le (h : left completed ≤ left again) (hpc : left again ≤ left l.pc) :
    (l.loop again completed).level left ≤ l.level left := by
  rw [loop]
  split_ifs
  · simpa [level] using hpc
  · simpa [level] using h.trans hpc

/-- The next item is a step ahead. -/
theorem loop_level_lt {d : Depot} {c : Char} {pc : PP} (h : left completed < left pc)
    (hpc : left again < left pc + 8) :
    (Producer.loop again completed ⟨pc, d.advance, c⟩).level left <
      Producer.level left ⟨pc, d, c⟩ := by
  rw [loop]
  split_ifs with hi
  · simp only [Depot.advance] at hi
    simp only [level, Depot.advance]
    omega
  · simp only [Depot.advance] at hi
    simp only [level, Depot.advance]
    omega

end Producer

namespace Consumer

variable {left : CP → ℕ} {again completed : CP} {l : Consumer CP}

theorem loop_level_le (h : left completed ≤ left again) (hpc : left again ≤ left l.pc) :
    (l.loop again completed).level left ≤ l.level left := by
  rw [loop]
  split_ifs
  · simpa [level] using hpc
  · simpa [level] using h.trans hpc

theorem loop_level_lt {d : Depot} {c product e : Char} {pc : CP} (h : left completed < left pc)
    (hpc : left again < left pc + 8) :
    (Consumer.loop again completed ⟨pc, (d.put product).advance, c, e⟩).level left <
      Consumer.level left ⟨pc, d, c, e⟩ := by
  rw [loop]
  split_ifs with hi
  · simp only [Depot.advance, Depot.put] at hi
    simp only [level, Depot.advance, Depot.put]
    omega
  · simp only [Depot.advance, Depot.put] at hi
    simp only [level, Depot.advance, Depot.put]
    omega

/-- At the head of the loop a consumer with items left expects the next digit. -/
theorem loop_eq (hi : l.cDepot.index < 10) (again completed : CP) :
    l.loop again completed =
      { l with expectedItem := ditoaChar l.cDepot.index l.expectedItem, pc := again } := by
  rw [loop, if_pos hi]

end Consumer

theorem Producer.loop_eq {l : Producer PP} (hi : l.pDepot.index < 10) (again completed : PP) :
    l.loop again completed = { l with product := l.pDepot.item, pc := again } := by
  rw [loop, if_pos hi]

/-- When nobody is between an item and its count, all producers are through and a consumer has items
left, the ring holds one. -/
theorem Places.exists_left {P : Places PP CP} {loc : (p : Child N) → Loc N PP CP p}
    {x : SharedBuffer × Record N} (h : ∀ p, P.Knows p (loc p) x)
    (hp : ∀ i, P.stored (loc (producer i)).pc = false)
    (hc : ∀ j, P.taken (loc (consumer j)).pc = false)
    (done : ∀ i, (loc (producer i)).pDepot.index = 10)
    (hj : ∃ j, (loc (consumer j)).cDepot.index < 10) : Stocked x.2 := by
  obtain ⟨j, hj⟩ := hj
  obtain ⟨hi, hr⟩ := sum_knows h
  have made : ∑ i, P.made (loc (producer i)) = ∑ i : Fin N, 10 :=
    Finset.sum_congr rfl fun i _ => by rw [made, hp, done]; rfl
  have gone : ∑ j, P.gone (loc (consumer j)) < ∑ j : Fin N, 10 := by
    apply Finset.sum_lt_sum
    · exact fun k _ => Consumer.Knows.le (h (consumer k))
    · refine ⟨j, Finset.mem_univ j, ?_⟩
      rw [Places.gone, hc]
      exact hj
  rw [Stocked, ← hi, ← hr, made]
  exact gone

/-- While the ring holds an item, and every consumer is through or tries to get one, the next digit
of one that tries is at the head. -/
theorem Places.exists_trying {P : Places PP CP} {loc : (p : Child N) → Loc N PP CP p}
    {x : SharedBuffer × Record N} {first : ℕ → Char} (h : ∀ p, P.Knows p (loc p) x)
    (hf : x.2.Fits first x.1) (stocked : Stocked x.2) {tries : Fin N → Prop}
    (hc : ∀ j, P.done (loc (consumer j)).pc = true ∨
      P.taken (loc (consumer j)).pc = false ∧ tries j) :
    ∃ j, tries j ∧ digits[(loc (consumer j)).cDepot.index]? = some x.1.head := by
  obtain ⟨j, hj⟩ := exists_expecting h hf stocked
  have hk : (loc (consumer j)).Knows P (x.2.removedBy j) := h (consumer j)
  rcases hc j with done | ⟨taken, hj'⟩
  · have := index_lt hj
    rw [gone, hk.done done] at this
    omega
  · rw [gone, taken] at hj
    exact ⟨j, hj', hj⟩

/-- When nobody is between an item and its count, and a child has items left, either the ring has
room and a producer items left, or the next digit of a consumer is at the head of the ring. -/
theorem Places.exists_turn {P : Places PP CP} {loc : (p : Child N) → Loc N PP CP p}
    {x : SharedBuffer × Record N} {first : ℕ → Char} (h : ∀ p, P.Knows p (loc p) x)
    (hf : x.2.Fits first x.1) (hp : ∀ i, P.stored (loc (producer i)).pc = false)
    (hc : ∀ j, P.taken (loc (consumer j)).pc = false)
    (left : (∃ i, (loc (producer i)).pDepot.index < 10) ∨
      ∃ j, (loc (consumer j)).cDepot.index < 10) :
    (Room x.2 ∧ ∃ i, (loc (producer i)).pDepot.index < 10) ∨
      Stocked x.2 ∧ ∃ j, digits[(loc (consumer j)).cDepot.index]? = some x.1.head := by
  by_cases turn : Room x.2 ∧ ∃ i, (loc (producer i)).pDepot.index < 10
  · exact .inl turn
  right
  have stocked : Stocked x.2 := by
    by_cases room : Room x.2
    · have full : ∀ i, ¬ (loc (producer i)).pDepot.index < 10 := fun i hi => turn ⟨room, i, hi⟩
      refine exists_left h hp hc (fun i => ?_) (left.resolve_left fun ⟨i, hi⟩ => full i hi)
      have hk : (loc (producer i)).Knows P (x.2.insertedBy i) := h (producer i)
      have hle := hk.le
      have := full i
      rw [made, hp i, Bool.toNat_false] at hle
      omega
    · rw [Room, bufferSize] at room
      rw [Stocked]
      omega
  obtain ⟨j, -, hj⟩ := exists_trying h hf stocked fun j => .inr ⟨hc j, trivial⟩
  exact ⟨stocked, j, hj⟩

end DlxOs.Apps
