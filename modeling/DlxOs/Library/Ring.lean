import Mathlib.Data.List.Basic
import Mathlib.Logic.Function.Basic
import Mathlib.Tactic.Common

/-!
# Ring buffers

Items are written to the slots of a ring in turn and taken from them in turn.
The two indices are the numbers of items written and taken, modulo the size.
Each slot holds the item last written to it, also after the item was taken, or
its first content.
-/

namespace DlxOs.Ring

variable {α : Type*}

/-- Two positions less than a round apart are in different slots. -/
theorem slot_ne {size j n : ℕ} (h : j < n) (h' : n < j + size) : j % size ≠ n % size := by
  intro e
  have hd : (n - j) % size = 0 := Nat.sub_mod_eq_zero_of_mod_eq e.symm
  rw [Nat.mod_eq_of_lt (by omega)] at hd
  omega

/-- The indices and slots of a ring after the items `written`, the first `taken` of them taken. -/
structure Holds (size : ℕ) (first : ℕ → α) (w r : ℕ) (buffer : ℕ → α) (written : List α)
    (taken : ℕ) : Prop where
  w_eq : w = written.length % size
  r_eq : r = taken % size
  taken_le : taken ≤ written.length
  fits : written.length ≤ taken + size
  stored : ∀ j, j < written.length → written.length ≤ j + size →
    written[j]? = some (buffer (j % size))
  untouched : ∀ j, written.length ≤ j → j < size → buffer j = first j

variable {size w r taken : ℕ} {c : α} {first buffer : ℕ → α} {written : List α}

/-- Before the first item both indices are zero. -/
theorem Holds.start (size : ℕ) (first : ℕ → α) : Holds size first 0 0 first [] 0 := by
  constructor <;> simp

/-- The indices agree exactly when the ring is empty or holds an item in every slot. -/
theorem Holds.empty_iff (h : Holds size first w r buffer written taken)
    (hf : written.length < taken + size) : w = r ↔ written.length = taken := by
  constructor
  · intro e
    by_contra hne
    have hlt : taken < written.length := Nat.lt_of_le_of_ne h.taken_le (Ne.symm hne)
    exact slot_ne hlt hf (by rw [← h.w_eq, ← h.r_eq, e])
  · intro e
    rw [h.w_eq, h.r_eq, e]

/-- The write index is next to the read index exactly when one slot is left. -/
theorem Holds.full_iff (h : Holds size first w r buffer written taken)
    (hf : written.length < taken + size) :
    (w + 1) % size = r ↔ written.length + 1 = taken + size := by
  have hw : (w + 1) % size = (written.length + 1) % size := by
    rw [h.w_eq, Nat.mod_add_mod]
  constructor
  · intro e
    by_contra hne
    have hlt : taken < written.length + 1 := Nat.lt_succ_of_le h.taken_le
    have hlt' : written.length + 1 < taken + size := by omega
    exact slot_ne hlt hlt' (by rw [← hw, ← h.r_eq, e])
  · intro e
    rw [hw, e, h.r_eq, Nat.add_mod_right]

/-- Writing an item puts it into the slot of the write index. -/
theorem Holds.write (h : Holds size first w r buffer written taken)
    (hf : written.length < taken + size) (c : α) :
    Holds size first ((w + 1) % size) r (Function.update buffer w c) (written ++ [c]) taken := by
  constructor
  · rw [h.w_eq, Nat.mod_add_mod, List.length_append, List.length_singleton]
  · exact h.r_eq
  · have := h.taken_le
    simp
    omega
  · simp
    omega
  · intro j hj hn
    rw [List.length_append, List.length_singleton] at hj hn
    rcases Nat.lt_succ_iff_lt_or_eq.mp hj with hlt | rfl
    · rw [List.getElem?_append_left hlt, h.w_eq, Function.update_of_ne (slot_ne hlt (by omega))]
      exact h.stored j hlt (by omega)
    · rw [h.w_eq, Function.update_self]
      simp
  · intro j hj hn
    rw [List.length_append, List.length_singleton] at hj
    rw [h.w_eq, Nat.mod_eq_of_lt (by omega), Function.update_of_ne (by omega)]
    exact h.untouched j (by omega) hn

/-- The slot of the read index holds the first item that has not been taken. -/
theorem Holds.head (h : Holds size first w r buffer written taken)
    (hn : taken < written.length) : written[taken]? = some (buffer r) := by
  rw [h.r_eq]
  exact h.stored taken hn h.fits

/-- Taking an item moves the read index on. -/
theorem Holds.take (h : Holds size first w r buffer written taken)
    (hn : taken < written.length) :
    Holds size first w ((r + 1) % size) buffer written (taken + 1) := by
  have hf := h.fits
  refine ⟨h.w_eq, ?_, hn, by omega, h.stored, h.untouched⟩
  rw [h.r_eq, Nat.mod_add_mod]

/-- Slots of items that have not been taken are not the slot of the write index. -/
theorem Holds.slot_ne_write (h : Holds size first w r buffer written taken)
    (hf : written.length < taken + size) {j : ℕ} (hj : taken ≤ j) (hn : j < written.length) :
    j % size ≠ w := by
  rw [h.w_eq]
  exact slot_ne hn (by omega)

/-- In an empty ring the slot of the read index is untouched or holds the item of a round before. -/
theorem Holds.stale (h : Holds size first w r buffer written taken)
    (he : written.length = taken) (hs : 0 < size) :
    buffer r = first r ∨ size ≤ taken ∧ written[taken - size]? = some (buffer r) := by
  rw [h.r_eq]
  by_cases hlt : taken < size
  · left
    rw [Nat.mod_eq_of_lt hlt]
    exact h.untouched taken (by omega) hlt
  · right
    refine ⟨by omega, ?_⟩
    have := h.stored (taken - size) (by omega) (by omega)
    rwa [← Nat.mod_eq_sub_mod (by omega)] at this

/-- The slots from the read index up to the write index. -/
def contents (size w r : ℕ) (buffer : ℕ → α) : List α :=
  (List.range ((w + size - r) % size)).map fun k => buffer ((r + k) % size)

theorem distance {size n d : ℕ} (h : d < size) :
    ((n + d) % size + size - n % size) % size = d := by
  have hr : n % size < size := Nat.mod_lt _ (by omega)
  rw [← Nat.mod_add_mod]
  rcases Nat.lt_or_ge (n % size + d) size with hlt | hge
  · rw [Nat.mod_eq_of_lt hlt, show n % size + d + size - n % size = d + size by omega,
      Nat.add_mod_right, Nat.mod_eq_of_lt h]
  · have e : (n % size + d) % size = n % size + d - size := by
      rw [Nat.mod_eq_sub_mod hge]
      exact Nat.mod_eq_of_lt (by omega)
    rw [e, show n % size + d - size + size - n % size = d by omega, Nat.mod_eq_of_lt h]

/-- A ring with a slot left shows the items that have not been taken, in order. -/
theorem Holds.contents_eq (h : Holds size first w r buffer written taken)
    (hf : written.length < taken + size) : contents size w r buffer = written.drop taken := by
  obtain ⟨d, hd⟩ := Nat.exists_eq_add_of_le h.taken_le
  have hw : (w + size - r) % size = d := by
    rw [h.w_eq, h.r_eq, hd]
    exact distance (by omega)
  refine List.ext_getElem (by simp [contents, hw, hd]) fun k hk _ => ?_
  have hk' : k < d := by simpa [contents, hw] using hk
  have stored := h.stored (taken + k) (by omega) (by omega)
  rw [List.getElem?_eq_getElem (by omega)] at stored
  simp only [contents, List.getElem_map, List.getElem_range, List.getElem_drop]
  rw [h.r_eq, Nat.mod_add_mod, Option.some.inj stored]

end DlxOs.Ring
