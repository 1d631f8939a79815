import DlxOs.Files.Loader

/-!
# Searching a string for characters

`dindex` looks for one character, `dmindex` for any character of a set. A
pointer into the string is the rest of the string. The outer loop of `dmindex`
is given a number of rounds and has no result when the rounds do not suffice.
-/

namespace DlxOs.Misc

open Files (dindex)

/-- The inner loop of `dmindex` for the character `a`: whether the search returns from it. -/
def dmindexFound (a : Char) : List Char → Bool
  | [] => false
  | c :: set => if a = c then true else dmindexFound a set

/-- The outer loop goes on at the character that it has just looked at. -/
def dmindex : ℕ → List Char → List Char → Option (Option (List Char))
  | 0, _, _ => none
  | _ + 1, [], _ => some none
  | rounds + 1, a :: s, set =>
    if dmindexFound a set then some (some (a :: s)) else dmindex rounds (a :: s) set

/-- The rest of the string from the first character of the set on, or nothing. -/
def firstIn (set : List Char) : List Char → Option (List Char)
  | [] => none
  | a :: s => if a ∈ set then some (a :: s) else firstIn set s

/-- What the search is for: it ends, with the first character of the set. -/
def FindsFirst (s set : List Char) : Prop :=
  ∃ rounds found, dmindex rounds s set = some found ∧ found = firstIn set s ∧
    ∀ c, set = [c] → found = dindex s c

variable {s set : List Char} {a c : Char}

theorem dmindexFound_iff : dmindexFound a set = true ↔ a ∈ set := by
  induction set with
  | nil => simp [dmindexFound]
  | cons c set ih =>
    by_cases hc : a = c
    · simp [dmindexFound, hc]
    · simp [dmindexFound, hc, ih]

/-- What is found is a character of the set, and no character before it is in the set. -/
theorem firstIn_eq_some {rest : List Char} : firstIn set s = some rest ↔
    ∃ pre a l, s = pre ++ rest ∧ rest = a :: l ∧ a ∈ set ∧ ∀ b ∈ pre, b ∉ set := by
  induction s with
  | nil =>
    constructor
    · intro h
      cases h
    · rintro ⟨pre, a, l, hs, rfl, -⟩
      simp at hs
  | cons b s ih =>
    by_cases hb : b ∈ set
    · rw [firstIn, if_pos hb]
      constructor
      · rintro ⟨⟩
        exact ⟨[], b, s, rfl, rfl, hb, by simp⟩
      · rintro ⟨pre, a, l, hs, hrest, -, hpre⟩
        cases pre with
        | nil => rw [hs, List.nil_append]
        | cons x pre =>
          obtain ⟨rfl, -⟩ := List.cons.inj hs
          exact absurd hb (hpre b List.mem_cons_self)
    · rw [firstIn, if_neg hb, ih]
      constructor
      · rintro ⟨pre, a, l, rfl, hrest, ha, hpre⟩
        refine ⟨b :: pre, a, l, rfl, hrest, ha, ?_⟩
        exact List.forall_mem_cons.mpr ⟨hb, hpre⟩
      · rintro ⟨pre, a, l, hs, hrest, ha, hpre⟩
        cases pre with
        | nil =>
          rw [List.nil_append, hrest] at hs
          obtain ⟨rfl, -⟩ := List.cons.inj hs
          exact absurd ha hb
        | cons x pre =>
          exact ⟨pre, a, l, (List.cons.inj hs).2, hrest, ha, (List.forall_mem_cons.mp hpre).2⟩

theorem firstIn_eq_none : firstIn set s = none ↔ ∀ a ∈ s, a ∉ set := by
  induction s with
  | nil => simp [firstIn]
  | cons b s ih =>
    by_cases hb : b ∈ set
    · simp [firstIn, hb]
    · simp [firstIn, hb, ih]

theorem firstIn_singleton : firstIn [c] s = dindex s c := by
  induction s with
  | nil => rfl
  | cons b s ih =>
    by_cases hb : b = c
    · simp [firstIn, dindex, hb]
    · simp [firstIn, dindex, hb, ih]

/-- A first character outside the set is looked at again in every round. -/
theorem dmindex_stuck (ha : a ∉ set) (rounds : ℕ) : dmindex rounds (a :: s) set = none := by
  induction rounds with
  | zero => rfl
  | succ rounds ih =>
    have hfound : ¬ dmindexFound a set = true := fun h => ha (dmindexFound_iff.mp h)
    rw [dmindex, if_neg hfound, ih]

/-- The search ends only with an empty string and on a first character that is in the set. -/
theorem dmindex_findsFirst (s set : List Char) :
    FindsFirst s set ↔ ∀ a ∈ s.head?, a ∈ set := by
  cases s with
  | nil =>
    simp only [List.head?_nil, Option.mem_def, reduceCtorEq, false_implies, implies_true,
      iff_true]
    exact ⟨1, none, rfl, rfl, fun c _ => rfl⟩
  | cons a s =>
    have hhead : (∀ b ∈ (a :: s).head?, b ∈ set) ↔ a ∈ set := by simp
    rw [hhead]
    constructor
    · rintro ⟨rounds, found, hrun, -⟩
      by_contra ha
      rw [dmindex_stuck ha] at hrun
      cases hrun
    · intro ha
      have hfirst : firstIn set (a :: s) = some (a :: s) := by rw [firstIn, if_pos ha]
      refine ⟨1, some (a :: s), ?_, hfirst.symm, ?_⟩
      · rw [dmindex, if_pos (dmindexFound_iff.mpr ha)]
      · rintro c rfl
        rw [← firstIn_singleton, hfirst]

/-- The character looked for is the second one. -/
theorem dmindex_second : ¬ ∀ s set : List Char, FindsFirst s set := by
  intro h
  obtain ⟨rounds, found, hrun, -⟩ := h ['a', 'b'] ['b']
  rw [dmindex_stuck (by decide)] at hrun
  cases hrun

end DlxOs.Misc
