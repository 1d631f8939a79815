import DlxOs.Traps.Strings

/-!
# The arguments of a new process

`ProcessFork` copies the name of a process into its control block, and splits
the argument buffer again into the strings that the process is started with.
The array `dum` is what comes onto the stack of the process: the number of
arguments, the address of the vector, and the vector.
-/

namespace DlxOs.Traps

open Kernel (Halt)
open Kernel (ok_bind)

variable {location count rounds : ℕ} {str : Chars sizeArgBuff} {u : List Byte}

/-- `dstrcpy (to, from)` between two arrays, from index `i` on, with its remaining rounds. -/
def copyChars {m n : ℕ} («from» : Chars m) : ℕ → ℕ → Chars n → Except Halt (Chars n)
  | 0, _, _ => .error .diverged
  | rounds + 1, i, «to» => do
    let last ← from.load i
    let «to» ← to.store i last
    if last ≠ 0 then copyChars «from» rounds (i + 1) «to» else return «to»

/-- `pcb->name` -/
abbrev PcbName := Chars 80

/-- The loop of `get_argument`, with its remaining rounds. -/
def skipArgument (str : Chars sizeArgBuff) : ℕ → ℕ → Except Halt ℕ
  | 0, _ => .error .diverged
  | rounds + 1, location =>
    if location < 100 then do
      if (← str.load location) = 0 then return location + 1
      else skipArgument str rounds (location + 1)
    else return location

/-- `get_argument`, with the static location before and after. -/
def getArgument (str : Chars sizeArgBuff) (location : ℕ) : Except Halt (ℕ × ℕ) := do
  let location2 := location
  if (← str.load location) = 0 ∨ location ≥ 99 then return (0, location)
  return (location2, ← skipArgument str 101 location)

/-- The array `dum`. -/
abbrev Dum := Fin (maxArgs + 8) → Word

def Dum.store (dum : Dum) (i : ℕ) (w : Word) : Except Halt Dum :=
  if h : i < maxArgs + 8 then .ok (Function.update dum ⟨i, h⟩ w) else .error .wildAccess

/-- Where the argument buffer lies in the memory of a new process. -/
def argBase : Word := BitVec.ofNat 32 (Memory.memoryPageSize - sizeArgBuff)

/-- The loop that fills `dum` from `count` on, with its remaining rounds. -/
def pointArguments (str : Chars sizeArgBuff) :
    ℕ → ℕ → ℕ → Dum → Except Halt (ℕ × Dum)
  | 0, _, _, _ => .error .diverged
  | rounds + 1, count, location, dum => do
    let (offset, location) ← getArgument str location
    let dum ← dum.store count (argBase + BitVec.ofNat 32 offset)
    if offset = 0 then return (count, dum)
    else pointArguments str rounds (count + 1) location dum

/-- The part of `ProcessFork` that fills `dum`. -/
def forkArguments (param : Chars sizeArgBuff) (dum : Dum) : Except Halt (ℕ × Dum) := do
  let (offset, location) ← getArgument param 0
  let dum ← dum.store 2 (argBase + BitVec.ofNat 32 offset)
  let (count, dum) ← pointArguments param 101 3 location dum
  let dum ← dum.store 0 (BitVec.ofNat 32 (count - 2))
  let dum ← dum.store 1 (argBase - BitVec.ofNat 32 ((count - 2) * 4))
  return (count, dum)

theorem Dum.store_eq {dum : Dum} {i : ℕ} {w : Word} (h : i < maxArgs + 8) :
    dum.store i w = .ok (Function.update dum ⟨i, h⟩ w) := dif_pos h

/-- The location moves on, but never beyond 100. -/
theorem skipArgument_ok (str : Chars sizeArgBuff) (hr : 100 < location + rounds)
    (hl : location ≤ 100) :
    ∃ l', skipArgument str rounds location = .ok l' ∧ location ≤ l' ∧ l' ≤ 100 ∧
      (location < 100 → location < l') := by
  induction rounds generalizing location with
  | zero => omega
  | succ rounds ih =>
      unfold skipArgument
      by_cases h : location < 100
      · rw [if_pos h, Chars.load_eq (show location < sizeArgBuff by unfold sizeArgBuff; omega),
          ok_bind]
        split
        · exact ⟨location + 1, rfl, by omega, by omega, fun _ => by omega⟩
        · obtain ⟨l', e, hle, hlt, -⟩ := ih (show 100 < location + 1 + rounds by omega) (by omega)
          exact ⟨l', e, by omega, hlt, fun _ => by omega⟩
      · rw [if_neg h]
        exact ⟨location, rfl, le_rfl, hl, fun hlt => absurd hlt h⟩

/-- An argument that is found lies at the location, which moves on. -/
theorem getArgument_ok (str : Chars sizeArgBuff) (hl : location ≤ 100) :
    getArgument str location = .ok (0, location) ∨
      ∃ l', getArgument str location = .ok (location, l') ∧ location < l' ∧ l' ≤ 100 := by
  unfold getArgument
  rw [Chars.load_eq (show location < sizeArgBuff by unfold sizeArgBuff; omega), ok_bind]
  split
  · exact .inl rfl
  · rename_i h
    obtain ⟨l', e, -, hle, hlt⟩ := skipArgument_ok str (show 100 < location + 101 by omega) hl
    rw [e, ok_bind]
    exact .inr ⟨l', rfl, hlt (by omega), hle⟩

/-- The loop over the arguments stays inside `dum`. -/
theorem pointArguments_ok (str : Chars sizeArgBuff) (dum : Dum) (hl : location ≤ 100)
    (hr : 100 < location + rounds)
    (hc : count ≤ location + 3) :
    ∃ count' dum', pointArguments str rounds count location dum = .ok (count', dum') ∧
      count' ≤ 103 := by
  induction rounds generalizing count location dum with
  | zero => omega
  | succ rounds ih =>
      have hin : count < maxArgs + 8 := by
        unfold maxArgs
        omega
      unfold pointArguments
      rcases getArgument_ok str hl with e | ⟨l', e, hlt, hle⟩
      · rw [e, ok_bind]
        simp only
        rw [Dum.store_eq hin, ok_bind, if_pos trivial]
        exact ⟨count, _, rfl, by omega⟩
      · rw [e, ok_bind]
        simp only
        rw [Dum.store_eq hin, ok_bind]
        split
        · exact ⟨count, _, rfl, by omega⟩
        · exact ih _ hle (by omega) (by omega)

/-- The argument pointers stay inside `dum`, whatever the argument buffer holds. -/
theorem forkArguments_ok (str : Chars sizeArgBuff) (dum : Dum) :
    ∃ count dum', forkArguments str dum = .ok (count, dum') ∧ count ≤ 103 := by
  obtain ⟨offset, location, e, hl⟩ : ∃ offset location,
      getArgument str 0 = .ok (offset, location) ∧ location ≤ 100 := by
    rcases getArgument_ok str (Nat.zero_le 100) with e | ⟨l', e, -, hle⟩
    · exact ⟨_, _, e, by omega⟩
    · exact ⟨_, _, e, hle⟩
  obtain ⟨count, dum', e', hcount⟩ := pointArguments_ok str
    (Function.update dum ⟨2, by decide⟩ (argBase + BitVec.ofNat 32 offset)) hl
    (show 100 < location + 101 by omega) (show 3 ≤ location + 3 by omega)
  unfold forkArguments
  rw [e, ok_bind]
  simp only
  rw [Dum.store_eq (by decide), ok_bind, e', ok_bind]
  simp only
  rw [Dum.store_eq (by decide), ok_bind, Dum.store_eq (by decide), ok_bind]
  exact ⟨_, _, rfl, hcount⟩

/-! ### The vector of the arguments -/

/-- Strings back to back from an index on that `get_argument` finds, and no others. -/
def Found (str : Chars sizeArgBuff) : ℕ → List (List Byte) → Prop
  | location, [] => location ≤ 100 ∧ (location < 99 → str.load location = .ok 0)
  | location, u :: us =>
    u ≠ [] ∧ StringAt str location u ∧ location + u.length < 100 ∧
      Found str (location + u.length + 1) us

/-- The addresses of strings that lie back to back. -/
def pointers : Word → List (List Byte) → List Word
  | _, [] => []
  | a, u :: us => a :: pointers (a + BitVec.ofNat 32 (u.length + 1)) us

theorem skipArgument_eq (h : StringAt str location u) (hl : location + u.length < 100)
    (hr : u.length < rounds) :
    skipArgument str rounds location = .ok (location + u.length + 1) := by
  induction u generalizing location rounds with
  | nil =>
      obtain ⟨rounds, rfl⟩ := Nat.exists_eq_succ_of_ne_zero (Nat.ne_of_gt hr)
      have hload : str.load location = .ok 0 := h
      have hlt : location < 100 := hl
      unfold skipArgument
      rw [if_pos hlt, hload]
      rfl
  | cons b u ih =>
      obtain ⟨rounds, rfl⟩ := Nat.exists_eq_succ_of_ne_zero (Nat.ne_of_gt (Nat.zero_lt_of_lt hr))
      obtain ⟨hload, hb, hu⟩ := h
      simp only [List.length_cons] at hl hr ⊢
      unfold skipArgument
      rw [if_pos (by omega), hload, ok_bind, if_neg hb, ih hu (by omega) (by omega)]
      congr 1
      omega

theorem getArgument_string (h : StringAt str location u) (hne : u ≠ [])
    (hl : location + u.length < 100) :
    getArgument str location = .ok (location, location + u.length + 1) := by
  have hpos : 0 < u.length := List.length_pos_iff.mpr hne
  obtain ⟨b, v, rfl⟩ := List.exists_cons_of_ne_nil hne
  unfold getArgument
  rw [h.1, ok_bind, if_neg (not_or.mpr ⟨h.2.1, by omega⟩), skipArgument_eq h hl (by omega)]
  rfl

theorem getArgument_end (h : Found str location []) :
    getArgument str location = .ok (0, location) := by
  obtain ⟨hle, hz⟩ := h
  unfold getArgument
  rw [Chars.load_eq (show location < sizeArgBuff by unfold sizeArgBuff; omega), ok_bind, if_pos]
  · rfl
  · rcases Nat.lt_or_ge location 99 with hlt | hge
    · have hload := hz hlt
      rw [Chars.load_eq (show location < sizeArgBuff by unfold sizeArgBuff; omega)] at hload
      exact .inl (Except.ok.inj hload)
    · exact .inr hge

/-- The loop enters the addresses of the strings that are left. -/
theorem pointArguments_eq {us : List (List Byte)} {dum : Dum} (h : Found str location us)
    (hl : 0 < location) (hr : us.length < rounds) (hc : count + us.length < maxArgs + 8) :
    pointArguments str rounds count location dum = .ok (count + us.length,
      place dum count (pointers (argBase + BitVec.ofNat 32 location) us ++ [argBase])) := by
  induction us generalizing count location rounds dum with
  | nil =>
      obtain ⟨rounds, rfl⟩ := Nat.exists_eq_succ_of_ne_zero (Nat.ne_of_gt hr)
      have hin : count < maxArgs + 8 := hc
      unfold pointArguments
      rw [getArgument_end h, ok_bind]
      simp only
      rw [Dum.store_eq hin, ok_bind, if_pos trivial, pointers, List.nil_append, ← place_cons hin,
        place_nil]
      simp
      rfl
  | cons u us ih =>
      obtain ⟨rounds, rfl⟩ := Nat.exists_eq_succ_of_ne_zero (Nat.ne_of_gt (Nat.zero_lt_of_lt hr))
      obtain ⟨hne, hu, hlt, hus⟩ := h
      simp only [List.length_cons] at hr hc ⊢
      have hin : count < maxArgs + 8 := by omega
      have hnext : argBase + BitVec.ofNat 32 (location + u.length + 1) =
          argBase + BitVec.ofNat 32 location + BitVec.ofNat 32 (u.length + 1) := by
        rw [BitVec.add_assoc, ← BitVec.ofNat_add, Nat.add_assoc]
      unfold pointArguments
      rw [getArgument_string hu hne hlt, ok_bind]
      simp only
      rw [Dum.store_eq hin, ok_bind, if_neg (by omega), ih hus (by omega) (by omega) (by omega),
        pointers, List.cons_append, ← place_cons hin, hnext,
        show count + 1 + us.length = count + (us.length + 1) by omega]

/-- What comes onto the stack of the new process: the number of the arguments, the address of the
vector, and the vector. -/
def stackWords (ss : List (List Byte)) : List Word :=
  BitVec.ofNat 32 ss.length :: (argBase - BitVec.ofNat 32 (ss.length * 4)) :: pointers argBase ss

theorem forkArguments_eq {us : List (List Byte)} {dum : Dum} (h : Found str 0 (u :: us))
    (hn : us.length < 101) :
    forkArguments str dum = .ok ((u :: us).length + 2,
      place dum 0 (stackWords (u :: us) ++ [argBase])) := by
  obtain ⟨hne, hu, hlt, hus⟩ := h
  have hmax : 3 + us.length < maxArgs + 8 := by
    unfold maxArgs
    omega
  unfold forkArguments
  rw [getArgument_string hu hne hlt, ok_bind]
  simp only
  rw [Dum.store_eq (by decide), ok_bind, pointArguments_eq hus (by omega) hn hmax, ok_bind]
  simp only
  rw [Dum.store_eq (by decide), ok_bind, Dum.store_eq (by decide), ok_bind, place_cons]
  rw [update_place (by decide), update_place (by decide), place_cons, place_cons, stackWords,
    pointers, show 3 + us.length - 2 = (u :: us).length by simp; omega,
    show 0 + u.length + 1 = u.length + 1 by omega,
    show 3 + us.length = (u :: us).length + 2 by simp; omega, BitVec.add_zero]
  rfl

end DlxOs.Traps
