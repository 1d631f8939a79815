import Mathlib.Data.Finset.Card
import Mathlib.Data.Finset.Lattice.Basic

/-!
# Resources with several holders

A table records for a resource the holders that share it, or nothing. Where it
records somebody it records every holder; where it records nobody there is at
most one. A holder that leaves can then tell from the table whether it was the
last one.
-/

namespace DlxOs.Sharing

variable {R O : Type*} [DecidableEq R] [DecidableEq O] {holders sharers : Finset O} {o : O}

/-- What a table records about a resource agrees with its holders. -/
def Agrees (holders sharers : Finset O) : Prop :=
  sharers = holders ∨ sharers = ∅ ∧ holders.card ≤ 1

omit [DecidableEq O] in
theorem Agrees.of_empty (h : Agrees ∅ sharers) : sharers = ∅ := h.elim id And.left

omit [DecidableEq O] in
theorem Agrees.eq (h : Agrees holders sharers) (hne : sharers ≠ ∅) : sharers = holders :=
  h.resolve_right fun he => hne he.1

/-- A resource that nobody shares has no other holder. -/
theorem Agrees.alone (h : Agrees holders ∅) (ho : o ∈ holders) : holders.erase o = ∅ := by
  rcases h with he | ⟨-, hc⟩
  · rw [← he] at ho
    exact absurd ho (Finset.notMem_empty o)
  · rw [← Finset.card_eq_zero, Finset.card_erase_of_mem ho]
    omega

/-- The last sharer in the table is the last holder. -/
theorem Agrees.last_iff (h : Agrees holders sharers) (ho : o ∈ holders) :
    sharers.erase o = ∅ ↔ holders.erase o = ∅ := by
  rcases eq_or_ne sharers ∅ with he | hne
  · subst he
    exact iff_of_true (Finset.erase_empty o) (h.alone ho)
  · rw [h.eq hne]

/-- A holder that leaves is taken off the table. -/
theorem Agrees.leave (h : Agrees holders sharers) : Agrees (holders.erase o) (sharers.erase o) := by
  rcases h with rfl | ⟨rfl, hc⟩
  · exact .inl rfl
  · exact .inr ⟨Finset.erase_empty o, (Finset.card_erase_le).trans hc⟩

/-- Somebody joins those in the table. -/
theorem Agrees.join (h : Agrees holders sharers) (hne : sharers ≠ ∅) :
    Agrees (insert o holders) (insert o sharers) :=
  .inl (congrArg (insert o) (h.eq hne))

omit [DecidableEq O] in
/-- A resource with one holder need not be in the table. -/
theorem Agrees.single : Agrees {o} ∅ := .inr ⟨rfl, (Finset.card_singleton o).le⟩

/-- A holder leaves one resource. -/
def drop (H : R → Finset O) (o : O) (r : R) : R → Finset O :=
  Function.update H r ((H r).erase o)

/-- A holder leaves the resources of a list. -/
def dropAll (H : R → Finset O) (o : O) (rs : List R) : R → Finset O :=
  fun r => if r ∈ rs then (H r).erase o else H r

variable {H : R → Finset O} {r : R} {rs ss : List R}

theorem drop_of_ne {r' : R} (h : r' ≠ r) : drop H o r r' = H r' := Function.update_of_ne h _ _

@[simp] theorem drop_self : drop H o r r = (H r).erase o := Function.update_self _ _ _

@[simp] theorem dropAll_nil : dropAll H o [] = H := by
  funext r
  simp [dropAll]

theorem dropAll_of_not_mem (h : r ∉ rs) : dropAll H o rs r = H r := if_neg h

theorem dropAll_drop : dropAll (drop H o r) o rs = dropAll H o (r :: rs) := by
  funext r'
  by_cases he : r' = r
  · subst he
    by_cases hm : r' ∈ rs <;> simp [dropAll, hm, Finset.erase_eq_of_notMem]
  · by_cases hm : r' ∈ rs <;> simp [dropAll, hm, he, drop_of_ne he]

theorem dropAll_append : dropAll (dropAll H o rs) o ss = dropAll H o (rs ++ ss) := by
  induction rs generalizing H with
  | nil => rw [dropAll_nil, List.nil_append]
  | cons r rs ih => rw [← dropAll_drop, ih, dropAll_drop, List.cons_append]

/-- Leaving everything that one holds. -/
theorem dropAll_eq (h : ∀ r, o ∈ H r → r ∈ rs) : dropAll H o rs = fun r => (H r).erase o := by
  funext r
  by_cases hm : r ∈ rs
  · exact if_pos hm
  · rw [dropAll_of_not_mem hm, Finset.erase_eq_of_notMem fun ho => hm (h r ho)]

end DlxOs.Sharing
