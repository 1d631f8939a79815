import Mathlib.Data.Finset.Card
import Mathlib.Tactic.Ring

/-!
# Bitmaps

A table of words holds a set of numbers: bit `b` of word `i` stands for the
number `i * w + b`. Setting and clearing one bit puts one number in and takes
one out. A cyclic search comes to every word in as many steps as there are words.
-/

namespace DlxOs.Bitmaps

variable {n w : ℕ} {f : Fin n → BitVec w} {i : Fin n} {b p : ℕ} {v : BitVec w}

/-- The bit of a number. -/
def isSet (f : Fin n → BitVec w) (p : ℕ) : Bool :=
  if h : p / w < n then (f ⟨p / w, h⟩).getLsbD (p % w) else false

/-- The numbers whose bits are set. -/
def numbers (f : Fin n → BitVec w) : Finset ℕ :=
  (Finset.range (n * w)).filter fun p => isSet f p = true

theorem width_pos (hp : p < n * w) : 0 < w :=
  Nat.pos_of_ne_zero fun hw => by simp [hw] at hp

theorem isSet_lt (h : isSet f p = true) : p < n * w := by
  unfold isSet at h
  split at h
  · next hp =>
      have hw : 0 < w := Nat.pos_of_ne_zero fun hw => by
        subst hw
        simp at h
      exact (Nat.div_lt_iff_lt_mul hw).mp hp
  · exact absurd h (by simp)

@[simp] theorem mem_numbers : p ∈ numbers f ↔ isSet f p = true := by
  rw [numbers, Finset.mem_filter, Finset.mem_range]
  exact ⟨And.right, fun h => ⟨isSet_lt h, h⟩⟩

theorem word_div (hb : b < w) : (i * w + b) / w = i := by
  rw [Nat.add_comm, Nat.add_mul_div_right _ _ (by omega), Nat.div_eq_of_lt hb, Nat.zero_add]

theorem word_mod (hb : b < w) : (i * w + b) % w = b := by
  rw [Nat.add_comm, Nat.add_mul_mod_self_right, Nat.mod_eq_of_lt hb]

theorem isSet_word (hb : b < w) : isSet f (i * w + b) = (f i).getLsbD b := by
  unfold isSet
  rw [dif_pos (by rw [word_div hb]; exact i.isLt), word_mod hb]
  exact congrArg (fun j => (f j).getLsbD b) (Fin.ext (word_div hb))

theorem mem_numbers_word (hb : b < w) : i * w + b ∈ numbers f ↔ (f i).getLsbD b = true := by
  rw [mem_numbers, isSet_word hb]

@[simp] theorem numbers_zero : numbers (fun _ : Fin n => 0#w) = ∅ := by
  ext p
  simp [isSet]

/-- A number is one bit of one word. -/
theorem exists_word (h : p ∈ numbers f) :
    ∃ (i : Fin n) (b : ℕ), b < w ∧ p = i * w + b ∧ (f i).getLsbD b = true := by
  have hp : p < n * w := isSet_lt (mem_numbers.mp h)
  have hw : 0 < w := width_pos hp
  let i : Fin n := ⟨p / w, (Nat.div_lt_iff_lt_mul hw).mpr hp⟩
  have he : p = i * w + p % w := (Nat.div_add_mod' p w).symm
  refine ⟨i, p % w, Nat.mod_lt p hw, he, ?_⟩
  rw [← mem_numbers_word (Nat.mod_lt p hw), ← he]
  exact h

/-- Updating one word changes the set of numbers there and nowhere else. -/
theorem numbers_update (hw : 0 < w) {s : Finset ℕ}
    (here : ∀ c < w, v.getLsbD c = true ↔ i * w + c ∈ s)
    (there : ∀ p, p / w ≠ i → (p ∈ numbers f ↔ p ∈ s)) :
    numbers (Function.update f i v) = s := by
  ext p
  by_cases hp : p / w = i
  · obtain ⟨c, hc, rfl⟩ : ∃ c < w, p = i * w + c :=
      ⟨p % w, Nat.mod_lt p hw, hp ▸ (Nat.div_add_mod' p w).symm⟩
    rw [mem_numbers_word hc, Function.update_self, here c hc]
  · rw [← there p hp, mem_numbers, mem_numbers]
    unfold isSet
    split
    · next h => rw [Function.update_of_ne fun he => hp (congrArg Fin.val he)]
    · rfl

/-- A word with one more bit than before adds that number. -/
theorem numbers_set (hb : b < w)
    (hv : ∀ c < w, v.getLsbD c = (decide (c = b) || (f i).getLsbD c)) :
    numbers (Function.update f i v) = insert (i * w + b) (numbers f) := by
  refine numbers_update (by omega) (fun c hc => ?_) (fun p hp => ?_)
  · rw [hv c hc, Finset.mem_insert, mem_numbers_word hc]
    simp
  · rw [Finset.mem_insert, or_iff_right]
    rintro rfl
    exact hp (word_div hb)

/-- A word with one bit fewer than before takes that number out. -/
theorem numbers_clear (hb : b < w)
    (hv : ∀ c < w, v.getLsbD c = (!decide (c = b) && (f i).getLsbD c)) :
    numbers (Function.update f i v) = (numbers f).erase (i * w + b) := by
  refine numbers_update (by omega) (fun c hc => ?_) (fun p hp => ?_)
  · rw [hv c hc, Finset.mem_erase, mem_numbers_word hc]
    simp
  · rw [Finset.mem_erase, and_iff_right]
    rintro rfl
    exact hp (word_div hb)

theorem exists_bit (h : v ≠ 0#w) : ∃ b < w, v.getLsbD b = true := by
  by_contra hn
  push Not at hn
  refine h (BitVec.eq_of_getLsbD_eq fun b hb => ?_)
  rw [BitVec.getLsbD_zero]
  exact Bool.eq_false_iff.mpr (hn b hb)

/-- The lowest bit that is set, looked for from bit `b` on. -/
def firstBit (v : BitVec w) : ℕ → ℕ → Option ℕ
  | 0, _ => none
  | fuel + 1, b => if v &&& (1#w <<< b) = 0#w then firstBit v fuel (b + 1) else some b

theorem getLsbD_bit {c : ℕ} (hc : c < w) : (1#w <<< b).getLsbD c = decide (c = b) := by
  simp only [BitVec.getLsbD_shiftLeft, BitVec.getLsbD_one]
  grind

theorem and_bit_ne_zero (hb : b < w) : v &&& (1#w <<< b) ≠ 0#w ↔ v.getLsbD b = true := by
  constructor
  · intro h
    obtain ⟨c, hc, hv⟩ := exists_bit h
    rw [BitVec.getLsbD_and, getLsbD_bit hc, Bool.and_eq_true, decide_eq_true_eq] at hv
    exact hv.2 ▸ hv.1
  · intro h he
    have := congrArg (fun x => BitVec.getLsbD x b) he
    simp [getLsbD_bit hb, h] at this

/-- The search ends at a bit that is set, if there is one. -/
theorem firstBit_spec {fuel : ℕ} (h : ∃ c, b ≤ c ∧ c < w ∧ v.getLsbD c = true) (hf : w ≤ b + fuel) :
    ∃ c < w, firstBit v fuel b = some c ∧ v.getLsbD c = true := by
  induction fuel generalizing b with
  | zero =>
      obtain ⟨c, hb, hc, -⟩ := h
      omega
  | succ fuel ih =>
      obtain ⟨c, hb, hc, hv⟩ := h
      unfold firstBit
      split
      · next hz =>
          have hne : b ≠ c := fun he => (and_bit_ne_zero hc).mpr hv (he ▸ hz)
          exact ih ⟨c, by omega, hc, hv⟩ (by omega)
      · next hz => exact ⟨b, by omega, rfl, (and_bit_ne_zero (by omega)).mp hz⟩

/-- The bit where the search ends is set. -/
theorem firstBit_some {fuel c : ℕ} (h : firstBit v fuel b = some c) :
    c < b + fuel ∧ v &&& (1#w <<< c) ≠ 0#w := by
  induction fuel generalizing b with
  | zero => cases h
  | succ fuel ih =>
      unfold firstBit at h
      split at h
      · obtain ⟨hlt, hset⟩ := ih h
        exact ⟨by omega, hset⟩
      · next hz =>
          obtain rfl := Option.some.inj h
          exact ⟨by omega, hz⟩

/-- The index after `m` in a cycle of `size`. -/
def next (size m : ℕ) : ℕ := if m + 1 ≥ size then 0 else m + 1

/-- The number of steps from `m` to `i` in a cycle of `size`. -/
def ahead (size m i : ℕ) : ℕ := if m ≤ i then i - m else size - m + i

variable {size m j : ℕ}

theorem next_lt (hm : m < size) : next size m < size := by
  unfold next
  split <;> omega

theorem ahead_lt (hm : m < size) (hj : j < size) : ahead size m j < size := by
  unfold ahead
  split <;> omega

/-- A step brings every other index nearer by one. -/
theorem ahead_next (hm : m < size) (hj : j < size) (hne : m ≠ j) :
    ahead size m j = ahead size (next size m) j + 1 := by
  unfold ahead next
  split <;> split <;> split <;> omega

end DlxOs.Bitmaps
