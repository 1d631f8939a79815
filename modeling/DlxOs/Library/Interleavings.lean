import Mathlib.Algebra.BigOperators.Group.Finset.Basic
import Mathlib.Algebra.BigOperators.Fin
import Mathlib.Data.Fintype.Card
import Mathlib.Data.List.Nodup
import Mathlib.Data.List.TakeDrop

/-!
# Interleavings of equal sequences

Every contributor writes the same sequence of distinct items, and a history
interleaves what they have written so far. How often an item occurs is how many
contributors have come past it. When two groups of the same size are such that
the history of the second is a prefix of the history of the first, somebody in
the second group has the next item of the first to come.
-/

namespace DlxOs.Interleavings

variable {ε δ ι κ α : Type*} [DecidableEq ι] [DecidableEq κ]

/-- The items that `i` contributed to a history, in order. -/
def itemsOf (who : ε → ι) (item : ε → α) (i : ι) (xs : List ε) : List α :=
  (xs.filter fun e => who e = i).map item

section Items

variable (who : ε → ι) (item : ε → α) (i : ι) (xs ys : List ε) (e : ε)

@[simp] theorem itemsOf_nil : itemsOf who item i [] = [] := rfl

@[simp] theorem itemsOf_append :
    itemsOf who item i (xs ++ ys) = itemsOf who item i xs ++ itemsOf who item i ys := by
  simp [itemsOf]

theorem itemsOf_self (h : who e = i) : itemsOf who item i [e] = [item e] := by
  simp [itemsOf, h]

theorem itemsOf_of_ne (h : who e ≠ i) : itemsOf who item i [e] = [] := by
  simp [itemsOf, h]

theorem length_itemsOf_le : (itemsOf who item i xs).length ≤ xs.length := by
  rw [itemsOf, List.length_map]
  exact List.length_filter_le ..

variable [Fintype ι]

/-- Every item of a history has been contributed by somebody. -/
theorem sum_length_itemsOf : ∑ i, (itemsOf who item i xs).length = xs.length := by
  induction xs with
  | nil => simp
  | cons e xs ih =>
      have split : ∀ i, (itemsOf who item i (e :: xs)).length =
          (if who e = i then 1 else 0) + (itemsOf who item i xs).length := by
        intro i
        by_cases h : who e = i
        · simp [itemsOf, h]
          omega
        · simp [itemsOf, h]
      simp only [split, Finset.sum_add_distrib, ih, Finset.sum_ite_eq, Finset.mem_univ, if_true,
        List.length_cons]
      omega

theorem sum_count_itemsOf [DecidableEq α] (a : α) :
    ∑ i, (itemsOf who item i xs).count a = (xs.map item).count a := by
  induction xs with
  | nil => simp
  | cons e xs ih =>
      have split : ∀ i, (itemsOf who item i (e :: xs)).count a =
          (if who e = i then (if item e = a then 1 else 0) else 0) +
            (itemsOf who item i xs).count a := by
        intro i
        by_cases h : who e = i
        · by_cases ha : item e = a
          · simp [itemsOf, h, ha]
            omega
          · simp [itemsOf, h, ha]
        · simp [itemsOf, h]
      simp only [split, Finset.sum_add_distrib, ih, Finset.sum_ite_eq, Finset.mem_univ, if_true,
        List.map_cons, List.count_cons, beq_iff_eq]
      omega

end Items

/-- A prefix of a sequence of distinct items has the item at `n` when it is longer than `n`. -/
theorem count_prefix [DecidableEq α] {ys digits : List α} (hd : digits.Nodup) (h : ys <+: digits)
    {n : ℕ} (hn : n < digits.length) :
    ys.count digits[n] = if n < ys.length then 1 else 0 := by
  have hy : ys.Nodup := hd.sublist h.sublist
  rw [hy.count]
  refine if_congr ?_ rfl rfl
  constructor
  · intro hm
    obtain ⟨j, hj, e⟩ := List.getElem_of_mem hm
    have hj' : j < digits.length := lt_of_lt_of_le hj h.length_le
    rw [h.getElem hj] at e
    have : j = n := (hd.getElem_inj_iff).mp e
    omega
  · intro hl
    rw [← h.getElem hl]
    exact List.getElem_mem ..

/-- How often the item at `n` occurs is how many contributors have come past it. -/
theorem count_eq_card [Fintype ι] [DecidableEq α] {who : ε → ι} {item : ε → α} {xs : List ε}
    {digits : List α} (hd : digits.Nodup) (h : ∀ i, itemsOf who item i xs <+: digits) {n : ℕ}
    (hn : n < digits.length) :
    (xs.map item).count digits[n] =
      (Finset.univ.filter fun i => n < (itemsOf who item i xs).length).card := by
  rw [← sum_count_itemsOf who item xs, Finset.card_filter]
  exact Finset.sum_congr rfl fun i _ => count_prefix hd (h i) hn

omit [DecidableEq ι] [DecidableEq κ] in
/-- Families of equal size with as many members above each bound have the same values. -/
theorem exists_eq_of_card [Fintype ι] [Fintype κ] {f : ι → ℕ} {g : κ → ℕ}
    (hc : Fintype.card κ = Fintype.card ι) {j : κ}
    (h : ∀ n ≤ g j, (Finset.univ.filter fun i => n < f i).card =
      (Finset.univ.filter fun i => n < g i).card) : ∃ i, f i = g j := by
  by_contra hne
  push Not at hne
  have above : (Finset.univ.filter fun i => g j < f i) =
      Finset.univ.filter fun i => g j ≤ f i := by
    ext i
    have := hne i
    simp
    omega
  have strict : (Finset.univ.filter fun i => g j < g i).card <
      (Finset.univ.filter fun i => g j ≤ g i).card := by
    refine Finset.card_lt_card ⟨fun i hi => ?_, fun hs => ?_⟩
    · simp at hi ⊢
      omega
    · have := hs (Finset.mem_filter.mpr ⟨Finset.mem_univ j, le_refl (g j)⟩)
      simp at this
  have below : (Finset.univ.filter fun i => g j ≤ f i).card =
      (Finset.univ.filter fun i => g j ≤ g i).card := by
    cases hg : g j with
    | zero => simp [hc]
    | succ n => exact h n (by omega)
  have := h (g j) le_rfl
  rw [above] at this
  omega

section Items

variable [DecidableEq α] {who : ε → ι} {item : ε → α} {xs : List ε} {digits : List α}

omit [DecidableEq α] in
/-- The item at a position is the next one of its contributor there. -/
theorem item_at (hx : ∀ i, itemsOf who item i xs <+: digits) {m : ℕ} (hm : m < xs.length) :
    digits[(itemsOf who item (who xs[m]) (xs.take m)).length]? = some (item xs[m]) := by
  have hnext : itemsOf who item (who xs[m]) (xs.take m) ++ [item xs[m]] <+: digits := by
    have := (((List.take_prefix (m + 1) xs).filter fun e => who e = who xs[m]).map item).trans
      (hx (who xs[m]))
    rw [← List.take_append_getElem hm] at this
    rwa [← itemsOf, itemsOf_append, itemsOf_self who item _ _ rfl] at this
  have hlt : (itemsOf who item (who xs[m]) (xs.take m)).length < digits.length := by
    have hle := hnext.length_le
    rw [List.length_append, List.length_singleton] at hle
    exact Nat.lt_of_succ_le hle
  rw [List.getElem?_eq_getElem hlt, ← hnext.getElem (by simp)]
  simp

omit [DecidableEq α] in
/-- An item comes after all items before it in the sequence. -/
theorem le_position (hd : digits.Nodup) (hx : ∀ i, itemsOf who item i xs <+: digits) {m n : ℕ}
    (hm : m < xs.length) (hn : digits[n]? = some (item xs[m])) : n ≤ m := by
  have hat := item_at hx hm
  obtain ⟨hlt, -⟩ := List.getElem?_eq_some_iff.mp hn
  have e : n = (itemsOf who item (who xs[m]) (xs.take m)).length :=
    (List.getElem?_inj hlt hd).mp (hn.trans hat.symm)
  calc n = (itemsOf who item (who xs[m]) (xs.take m)).length := e
    _ ≤ (xs.take m).length := length_itemsOf_le ..
    _ ≤ m := List.length_take_le ..

/-- Somebody in the second group has the next item of the first group to come. -/
theorem exists_next [Fintype ι] [Fintype κ] {who' : δ → κ} {item' : δ → α} {ys : List δ}
    (hc : Fintype.card ι = Fintype.card κ) (hd : digits.Nodup)
    (hx : ∀ i, itemsOf who item i xs <+: digits) (hy : ∀ j, itemsOf who' item' j ys <+: digits)
    (hp : ys.map item' <+: xs.map item) (hl : ys.length < xs.length) :
    ∃ j, digits[(itemsOf who' item' j ys).length]? = some (item xs[ys.length]) := by
  set m := ys.length
  have hitem := item_at hx hl
  obtain ⟨hlt, -⟩ := List.getElem?_eq_some_iff.mp hitem
  have hsub : ∀ i, itemsOf who item i (xs.take m) <+: digits := fun i =>
    (((List.take_prefix m xs).filter _).map _).trans (hx i)
  have hmap : ys.map item' = (xs.take m).map item := by
    rw [List.map_take]
    exact List.prefix_iff_eq_take.mp hp |>.trans (by simp [m])
  obtain ⟨j, hj⟩ := exists_eq_of_card (f := fun j => (itemsOf who' item' j ys).length)
    (g := fun i => (itemsOf who item i (xs.take m)).length) (j := who xs[m]) hc fun n hn => by
      have hn' : n < digits.length := by omega
      rw [← count_eq_card hd hy hn', ← count_eq_card hd hsub hn', hmap]
  exact ⟨j, by rw [hj, hitem]⟩

end Items

end DlxOs.Interleavings
