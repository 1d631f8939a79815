import Mathlib.Logic.Function.Basic
import Mathlib.Order.Bounds.Basic

/-!
# Copies between places

A copy of a number of elements is described by the places it reads from and the
places it writes to. Copies compose when the later one neither writes where the
earlier one wrote nor reads from there. Where a copy stops at the first place
that does not qualify, the longest initial segment of qualifying places is what
it covers.
-/

namespace DlxOs.Copying

variable {α β : Type*} {src dst : ℕ → α} {k m n : ℕ} {f g g' : α → β} {P : ℕ → Prop}

/-- The first `m` places of `dst` hold what those of `src` held, and all other places are kept. -/
structure Copies (src dst : ℕ → α) (m : ℕ) (f g : α → β) : Prop where
  copied : ∀ i < m, g (dst i) = f (src i)
  kept : ∀ a, (∀ i < m, a ≠ dst i) → g a = f a

theorem Copies.zero : Copies src dst 0 f f where
  copied _ hi := absurd hi (Nat.not_lt_zero _)
  kept _ _ := rfl

theorem Copies.one [DecidableEq α] :
    Copies src dst 1 f (Function.update f (dst 0) (f (src 0))) := by
  constructor
  · intro i hi
    obtain rfl := Nat.lt_one_iff.mp hi
    exact Function.update_self ..
  · intro a ha
    exact Function.update_of_ne (ha 0 Nat.one_pos) ..

/-- Only the places that a copy uses matter. -/
theorem Copies.congr {src' dst' : ℕ → α} (h : Copies src dst m f g)
    (hsrc : ∀ i < m, src' i = src i) (hdst : ∀ i < m, dst' i = dst i) :
    Copies src' dst' m f g := by
  constructor
  · intro i hi
    rw [hsrc i hi, hdst i hi]
    exact h.copied i hi
  · intro a ha
    apply h.kept
    intro i hi
    rw [← hdst i hi]
    exact ha i hi

/-- Two copies in a row are one copy, when the second leaves alone what the first has written. -/
theorem Copies.append (h : Copies src dst k f g)
    (h' : Copies (fun i => src (k + i)) (fun i => dst (k + i)) m g g')
    (hdst : ∀ i < k, ∀ j < m, dst i ≠ dst (k + j))
    (hsrc : ∀ i < k, ∀ j < m, src (k + j) ≠ dst i) : Copies src dst (k + m) f g' := by
  constructor
  · intro i hi
    rcases lt_or_ge i k with hlt | hge
    · rw [h'.kept _ (hdst i hlt)]
      exact h.copied i hlt
    · obtain ⟨j, rfl⟩ := Nat.exists_eq_add_of_le hge
      have hj : j < m := by omega
      calc g' (dst (k + j)) = g (src (k + j)) := h'.copied j hj
        _ = f (src (k + j)) := h.kept _ fun i hi => hsrc i hi j hj
  · intro a ha
    calc g' a = g a := h'.kept a fun j hj => ha (k + j) (by omega)
      _ = f a := h.kept a fun i hi => ha i (by omega)

/-- The places that were read keep what they held. -/
theorem Copies.source (h : Copies src dst m f g) (apart : ∀ i < m, ∀ j < m, src i ≠ dst j)
    {i : ℕ} (hi : i < m) : g (src i) = f (src i) :=
  h.kept _ (apart i hi)

/-- The lengths up to `n` for which all places qualify. -/
def initialSegments (P : ℕ → Prop) (n : ℕ) : Set ℕ := {m | m ≤ n ∧ ∀ i < m, P i}

theorem isGreatest_zero (h : n = 0 ∨ ¬ P 0) : IsGreatest (initialSegments P n) 0 := by
  constructor
  · exact ⟨Nat.zero_le n, fun i hi => absurd hi (Nat.not_lt_zero i)⟩
  · rintro m ⟨hm, hall⟩
    by_contra hpos
    rcases h with rfl | h
    · exact hpos hm
    · exact h (hall 0 (by omega))

/-- Behind `k` places that qualify, the longest segment goes on. -/
theorem isGreatest_add (hk : k ≤ n) (hall : ∀ i < k, P i)
    (h : IsGreatest (initialSegments (fun i => P (k + i)) (n - k)) m) :
    IsGreatest (initialSegments P n) (k + m) := by
  obtain ⟨⟨hm, hrest⟩, hmax⟩ := h
  constructor
  · refine ⟨by omega, fun i hi => ?_⟩
    rcases lt_or_ge i k with hlt | hge
    · exact hall i hlt
    · obtain ⟨j, rfl⟩ := Nat.exists_eq_add_of_le hge
      exact hrest j (by omega)
  · rintro l ⟨hl, hbelow⟩
    have := hmax (show l - k ∈ initialSegments (fun i => P (k + i)) (n - k) from
      ⟨by omega, fun i hi => hbelow (k + i) (by omega)⟩)
    omega

end DlxOs.Copying
