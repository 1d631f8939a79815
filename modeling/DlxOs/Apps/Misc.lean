import Mathlib.Tactic.Common

/-!
# Numbers as text

`ditoa` writes a number with 32-bit arithmetic that wraps around. Its loops are
given a number of rounds and have no result when the rounds do not suffice.
-/

namespace DlxOs.Apps

/-- The character that ends a string. -/
def nul : Char := Char.ofNat 0

/-- The loop `for (k = 1; k <= n; k *= 10)`. -/
def ditoaScale (n : BitVec 32) : ℕ → BitVec 32 → Option (BitVec 32)
  | 0, _ => none
  | rounds + 1, k => if k.sle n then ditoaScale n rounds (k * 10) else some k

/-- The loop that writes the digits from the highest on; a division by zero has no result. -/
def ditoaDigits : ℕ → BitVec 32 → BitVec 32 → Option (List Char)
  | 0, _, _ => none
  | rounds + 1, n, k =>
    let k := k.sdiv 10
    if k = 0 then none
    else
      let c := Char.ofNat ((n.sdiv k + 48).toNat % 256)
      if (1 : BitVec 32).slt k then (ditoaDigits rounds (n.srem k) k).map (c :: ·) else some [c]

/-- What `ditoa` writes to its buffer. -/
def ditoa (rounds : ℕ) (n : BitVec 32) : Option (List Char) :=
  if n.slt 0 then some ['-', nul]
  else if n = 0 then some ['0', nul]
  else do
    let k ← ditoaScale n rounds 1
    let cs ← ditoaDigits rounds n k
    return cs ++ [nul]

/-- The items that each producer inserts. -/
def digits : List Char := ['0', '1', '2', '3', '4', '5', '6', '7', '8', '9']

theorem digits_nodup : digits.Nodup := by decide

/-- The digits of the loops over a depot fit into one character. -/
theorem ditoa_digit : ∀ i : Fin 10,
    ditoa 33 (BitVec.ofNat 32 i.val) = some [digits.get i, nul] := by
  decide

/-- The character at the address that `ditoa` is given: the first that it writes. After 33 rounds
`k` is zero, and the loop that makes it larger never ends. -/
def ditoaChar (index : ℕ) (old : Char) : Char :=
  match ditoa 33 (BitVec.ofNat 32 index) with
  | some (c :: _) => c
  | _ => old

theorem ditoaChar_eq {index : ℕ} (h : index < 10) (old : Char) :
    digits[index]? = some (ditoaChar index old) := by
  rw [ditoaChar, ditoa_digit ⟨index, h⟩]
  exact List.getElem?_eq_getElem h

end DlxOs.Apps
