import DlxOs.Traps.Arguments

/-!
# The buffers of process creation

The strings of a `process_create` trap are packed back to back. The end of the
buffer is only tested after a byte is written, and the name that is cut to 99
characters goes into a field of 80, so that creation stays inside its buffers
for some argument vectors only.
-/

namespace DlxOs.Traps

open Kernel (Halt)
open Kernel (ok_bind)

variable {i j rounds m n : ℕ} {a : Word} {u old : List Byte} {ws : List Word}
  {ss : List (List Byte)} {space : UserSpace} {trapArgs : Word}
  {args : Chars (4 * maxArgs)} {allargs : Chars sizeArgBuff} {l : CreateArrays}

/-- The words from index `j` on, up to the null pointer. -/
def argVector (args : Chars (4 * maxArgs)) : ℕ → ℕ → List Word
  | 0, _ => []
  | rounds + 1, j =>
    let a := (args.word j).toOption.getD 0
    if a ≠ 0 then a :: argVector args rounds (j + 1) else []

/-- No string starts behind the buffer, unless there is nothing to copy. The list is what the rest
of the buffer held before. -/
def Fits (space : UserSpace) : List Word → List Byte → Prop
  | [], _ => True
  | a :: as, old =>
    (old = [] → space a = none) ∧ Fits space as (old.drop (fetched space a old).length)

instance decidableFits (space : UserSpace) : ∀ as old, Decidable (Fits space as old)
  | [], _ => .isTrue trivial
  | a :: as, old =>
    have := decidableFits space as (old.drop (fetched space a old).length)
    inferInstanceAs (Decidable ((old = [] → space a = none) ∧
      Fits space as (old.drop (fetched space a old).length)))

/-- The strings back to back. -/
def packed (space : UserSpace) : List Word → List Byte → List Byte
  | [], _ => []
  | a :: as, old =>
    fetched space a old ++ packed space as (old.drop (fetched space a old).length)

theorem argVector_zero (h : args.word j = .ok 0) : argVector args (rounds + 1) j = [] := by
  unfold argVector
  rw [h]
  rfl

theorem argVector_succ (h : args.word j = .ok a) (ha : a ≠ 0) :
    argVector args (rounds + 1) j = a :: argVector args rounds (j + 1) := by
  conv_lhs => unfold argVector
  rw [h]
  exact if_pos ha

/-- A round of the loop over the arguments. -/
theorem copyArgs_zero (h : args.word j = .ok 0) :
    copyArgs space args (rounds + 1) j i allargs = .ok allargs := by
  unfold copyArgs
  rw [h]
  rfl

theorem copyArgs_succ (h : args.word j = .ok a) (ha : a ≠ 0) :
    copyArgs space args (rounds + 1) j i allargs =
      copyString space sizeArgBuff a i allargs >>= fun r =>
        copyArgs space args rounds (j + 1) r.1 r.2 := by
  conv_lhs => unfold copyArgs
  rw [h, ok_bind, if_pos ha]

/-- The loop over the arguments packs the strings, or writes behind the buffer. -/
theorem copyArgs_eq (hj : j + rounds ≤ maxArgs)
    (h : Fits space (argVector args rounds j) (allargs.rest i)) :
    copyArgs space args rounds j i allargs =
      .ok (place allargs i (packed space (argVector args rounds j) (allargs.rest i))) := by
  induction rounds generalizing i j allargs with
  | zero => rw [copyArgs, argVector, packed, place_nil]
  | succ rounds ih =>
      obtain ⟨a, ha⟩ := Chars.word_ok (s := args) (k := j) (by omega)
      by_cases hz : a = 0
      · subst hz
        rw [copyArgs_zero ha, argVector_zero ha, packed, place_nil]
      · rw [argVector_succ ha hz] at h ⊢
        obtain ⟨hend, hrest⟩ := h
        rw [copyArgs_succ ha hz]
        rcases Nat.lt_or_ge i sizeArgBuff with hi | hi
        · rw [← rest_place] at hrest
          rw [copyString_eq hi (Nat.sub_le ..), ok_bind]
          simp only
          rw [ih (by omega) hrest, place_append, rest_place]
          rfl
        · have hnil : allargs.rest i = [] := Chars.rest_eq_nil hi
          have hnil' : allargs.rest (i + 1) = [] := Chars.rest_eq_nil (by omega)
          rw [hnil, List.drop_nil, ← hnil'] at hrest
          have hbehind : copyString space sizeArgBuff a i allargs = .ok (i + 1, allargs) :=
            (copyString_behind 1023 hi).trans (if_pos (hend hnil))
          rw [hbehind, ok_bind]
          simp only
          rw [ih (by omega) hrest, place_behind (by omega), place_behind hi]

theorem copyArgs_error (hj : j + rounds ≤ maxArgs)
    (h : ¬ Fits space (argVector args rounds j) (allargs.rest i)) :
    copyArgs space args rounds j i allargs = .error .wildAccess := by
  induction rounds generalizing i j allargs with
  | zero => exact absurd trivial h
  | succ rounds ih =>
      obtain ⟨a, ha⟩ := Chars.word_ok (s := args) (k := j) (by omega)
      by_cases hz : a = 0
      · subst hz
        rw [argVector_zero ha] at h
        exact absurd trivial h
      · rw [argVector_succ ha hz, Fits, not_and_or, Classical.not_imp] at h
        rw [copyArgs_succ ha hz]
        rcases Nat.lt_or_ge i sizeArgBuff with hi | hi
        · have hne : allargs.rest i ≠ [] := by
            rw [Chars.rest_eq_cons hi]
            exact List.cons_ne_nil _ _
          have hrest := h.resolve_left fun h => hne h.1
          rw [← rest_place] at hrest
          rw [copyString_eq hi (Nat.sub_le ..), ok_bind]
          exact ih (by omega) hrest
        · have hnil : allargs.rest i = [] := Chars.rest_eq_nil hi
          have hnil' : allargs.rest (i + 1) = [] := Chars.rest_eq_nil (by omega)
          have hbehind : copyString space sizeArgBuff a i allargs =
              if space a = none then .ok (i + 1, allargs) else .error .wildAccess :=
            copyString_behind 1023 hi
          rw [hbehind]
          by_cases hs : space a = none
          · rw [if_pos hs, ok_bind]
            have hrest := h.resolve_left fun h => h.2 hs
            rw [hnil, List.drop_nil, ← hnil'] at hrest
            exact ih (by omega) hrest
          · rw [if_neg hs]
            rfl

/-- The strings with their null characters, back to back. -/
def backToBack (ss : List (List Byte)) : List Byte := ss.flatMap (· ++ [0])

theorem backToBack_append {ss' : List (List Byte)} :
    backToBack (ss ++ ss') = backToBack ss ++ backToBack ss' := by
  simp [backToBack]

theorem backToBack_cons : backToBack (u :: ss) = u ++ 0 :: backToBack ss := by
  simp [backToBack]

theorem length_lt_backToBack {v : List Byte} (h : v ∈ ss) : v.length < (backToBack ss).length := by
  obtain ⟨pre, post, rfl⟩ := List.append_of_mem h
  simp [backToBack]
  omega

theorem nonzero_of_strings {space : UserSpace} (h : List.Forall₂ (HasString space) ws ss) :
    ∀ u ∈ ss, ∀ b ∈ u, b ≠ 0 := by
  induction h with
  | nil => simp
  | cons hu _ ih =>
      intro v hv
      rcases List.mem_cons.mp hv with rfl | hv
      · exact hu.nonzero
      · exact ih v hv

/-- The strings of a user process are packed back to back. -/
theorem packed_strings {space : UserSpace} (old : List Byte)
    (h : List.Forall₂ (HasString space) ws ss)
    (hlen : (backToBack ss).length ≤ old.length) :
    Fits space ws old ∧ packed space ws old = backToBack ss := by
  induction h generalizing old with
  | nil => exact ⟨trivial, rfl⟩
  | @cons a u ws ss hu _ ih =>
      rw [backToBack_cons, List.length_append, List.length_cons] at hlen
      have hfetched : fetched space a old = u ++ [0] := by
        rw [hu.fetched]
        exact List.take_of_length_le (by simp; omega)
      have hne : old ≠ [] := by
        rintro rfl
        simp at hlen
      have hrest := ih (old.drop (u ++ [0]).length) (by simp; omega)
      rw [Fits, packed, hfetched, backToBack_cons, hrest.2]
      exact ⟨⟨fun h => absurd h hne, hrest.1⟩, by simp⟩

/-- A string that fits is copied with its null character. -/
theorem copyChars_ok {«from» : Chars m} {«to» : Chars n} (h : StringAt «from» i u)
    (hr : u.length < rounds) (hn : i + u.length < n) :
    copyChars «from» rounds i «to» = .ok (place «to» i (u ++ [0])) := by
  induction u generalizing i rounds «to» with
  | nil =>
      obtain ⟨rounds, rfl⟩ := Nat.exists_eq_succ_of_ne_zero (Nat.ne_of_gt hr)
      have hload : from.load i = .ok 0 := h
      have hi : i < n := hn
      unfold copyChars
      rw [hload, ok_bind, Chars.store_eq hi, ok_bind, List.nil_append, ← place_cons hi, place_nil]
      rfl
  | cons b u ih =>
      obtain ⟨rounds, rfl⟩ := Nat.exists_eq_succ_of_ne_zero (Nat.ne_of_gt (Nat.zero_lt_of_lt hr))
      obtain ⟨hload, hb, hu⟩ := h
      simp only [List.length_cons] at hr hn
      unfold copyChars
      rw [hload, ok_bind, Chars.store_eq (show i < n by omega), ok_bind, if_pos hb,
        ih hu (by omega) (by omega), List.cons_append, place_cons]

theorem copyChars_error {«from» : Chars m} {«to» : Chars n} (h : StringAt «from» i u)
    (hr : u.length < rounds) (hn : n ≤ i + u.length) :
    copyChars «from» rounds i «to» = .error .wildAccess := by
  induction u generalizing i rounds «to» with
  | nil =>
      obtain ⟨rounds, rfl⟩ := Nat.exists_eq_succ_of_ne_zero (Nat.ne_of_gt hr)
      have hload : from.load i = .ok 0 := h
      have hi : n ≤ i := hn
      unfold copyChars
      rw [hload, ok_bind, Chars.store_error hi]
      rfl
  | cons b u ih =>
      obtain ⟨rounds, rfl⟩ := Nat.exists_eq_succ_of_ne_zero (Nat.ne_of_gt (Nat.zero_lt_of_lt hr))
      obtain ⟨hload, hb, hu⟩ := h
      simp only [List.length_cons] at hr hn
      unfold copyChars
      rw [hload, ok_bind]
      rcases Nat.lt_or_ge i n with hi | hi
      · rw [Chars.store_eq hi, ok_bind, if_pos hb]
        exact ih hu (by omega) (by omega)
      · rw [Chars.store_error hi]
        rfl

/-- The argument words that the handler works with. -/
def received (space : UserSpace) (trapArgs : Word) (l : CreateArrays) : Chars (4 * maxArgs) :=
  place l.args 0 (readable space trapArgs (4 * maxArgs))

/-- The address of the program name. -/
def programName (args : Chars (4 * maxArgs)) : Word := (args.word 0).toOption.getD 0

theorem word_programName : args.word 0 = .ok (programName args) := by
  obtain ⟨w, hw⟩ := Chars.word_ok (s := args) (k := 0) (by decide)
  unfold programName
  rw [hw]
  rfl

/-- The name that `ProcessFork` is called with. -/
def handedName (space : UserSpace) (a : Word) (name : Chars 100) : Chars 100 :=
  Function.update (place name 0 (fetched space a (name.rest 0))) ⟨99, by decide⟩ 0

/-- What the handler does up to the call of `ProcessFork`. -/
theorem trapProcessCreateUser_eq :
    trapProcessCreateUser space trapArgs l =
      copyArgs space (received space trapArgs l) 11 0 0 (cleared l.allargs) >>= fun allargs =>
        .ok ⟨Function.update allargs ⟨1023, by decide⟩ 0,
          handedName space (programName (received space trapArgs l)) l.name⟩ := by
  unfold trapProcessCreateUser
  rw [memoryCopyUserToSystem_eq (by decide), ok_bind]
  change (Chars.word (received space trapArgs l) 0 >>= _) = _
  rw [word_programName, ok_bind, copyString_eq (by decide) (by decide), ok_bind]
  simp only
  rw [Chars.store_eq (by decide), ok_bind]
  apply bind_congr
  intro allargs
  rw [Chars.store_eq (by decide), ok_bind]
  rfl

/-- Strings that fit into the cleared part are handed on back to back. -/
theorem createUser_strings
    (hs : List.Forall₂ (HasString space) (argVector (received space trapArgs l) 11 0) ss)
    (hlen : (backToBack ss).length ≤ 100) :
    trapProcessCreateUser space trapArgs l =
      .ok ⟨Function.update (place (cleared l.allargs) 0 (backToBack ss)) ⟨1023, by decide⟩ 0,
        handedName space (programName (received space trapArgs l)) l.name⟩ := by
  obtain ⟨hfits, hpacked⟩ := packed_strings ((cleared l.allargs).rest 0) hs (by
    rw [Chars.length_rest]
    exact hlen.trans (by decide))
  rw [trapProcessCreateUser_eq, copyArgs_eq (by decide) hfits, hpacked, ok_bind]

/-- The handler writes only inside its arrays. -/
theorem handler_inBounds_iff : (∃ call, trapProcessCreateUser space trapArgs l = .ok call) ↔
    Fits space (argVector (received space trapArgs l) 11 0) ((cleared l.allargs).rest 0) := by
  rw [trapProcessCreateUser_eq]
  constructor
  · rintro ⟨call, e⟩
    by_contra hf
    rw [copyArgs_error (by decide) hf] at e
    cases e
  · intro hf
    rw [copyArgs_eq (by decide) hf, ok_bind]
    exact ⟨_, rfl⟩

/-- What is handed on has the name that was fetched. -/
theorem handler_name {call : ForkCall} (e : trapProcessCreateUser space trapArgs l = .ok call) :
    call.name = handedName space (programName (received space trapArgs l)) l.name := by
  rw [trapProcessCreateUser_eq] at e
  cases hc : copyArgs space (received space trapArgs l) 11 0 0 (cleared l.allargs) with
  | error e' =>
      rw [hc] at e
      cases e
  | ok allargs =>
      rw [hc, ok_bind] at e
      cases e
      rfl

/-- Process creation writes only inside its arrays. -/
def CreateInBounds (space : UserSpace) (trapArgs : Word) (l : CreateArrays) (pcbName : PcbName)
    (dum : Dum) : Prop :=
  ∃ call name r, trapProcessCreateUser space trapArgs l = .ok call ∧
    copyChars call.name 100 0 pcbName = .ok name ∧ forkArguments call.allargs dum = .ok r

/-- The name fits into the field of the process control block. -/
theorem copyName_iff (pcbName : PcbName) (name : Chars 100) :
    (∃ name', copyChars (handedName space a name) 100 0 pcbName = .ok name') ↔
      (fetched space a (name.rest 0)).length ≤ 80 := by
  obtain ⟨u, hz, e⟩ := exists_fetched space a (name.rest 0)
  rw [Chars.length_rest] at e
  have hs : StringAt (handedName space a name) 0 (u.take 99) := by
    unfold handedName
    rw [e]
    exact stringAt_cut hz (by decide)
  have hlen : (u.take 99).length < 100 := by
    rw [List.length_take]
    omega
  rw [e]
  simp only [List.length_take, List.length_append, List.length_singleton] at hlen ⊢
  rcases Nat.lt_or_ge (min 99 u.length) 80 with hlt | hge
  · exact iff_of_true ⟨_, copyChars_ok hs (by simp) (by simp; omega)⟩ (by omega)
  · refine iff_of_false ?_ (by omega)
    rintro ⟨_, h⟩
    rw [copyChars_error hs (by simp) (by simp; omega)] at h
    cases h

/-- Process creation stays inside its buffers if and only if no string starts behind the argument
buffer and the name has at most 79 characters. -/
theorem create_inBounds_iff (space : UserSpace) (trapArgs : Word) (l : CreateArrays)
    (pcbName : PcbName) (dum : Dum) :
    CreateInBounds space trapArgs l pcbName dum ↔
      Fits space (argVector (received space trapArgs l) 11 0) ((cleared l.allargs).rest 0) ∧
        (fetched space (programName (received space trapArgs l)) (l.name.rest 0)).length ≤ 80 := by
  rw [← copyName_iff pcbName l.name, ← handler_inBounds_iff]
  constructor
  · rintro ⟨call, name, r, e, en, -⟩
    exact ⟨⟨call, e⟩, name, handler_name e ▸ en⟩
  · rintro ⟨⟨call, e⟩, name, en⟩
    obtain ⟨count, dum', er, -⟩ := forkArguments_ok call.allargs dum
    exact ⟨call, name, (count, dum'), e, (handler_name e).symm ▸ en, er⟩

/-- Two addresses of the same string of this many characters. -/
def twice (count : ℕ) : UserSpace := fun a =>
  if a.toNat < 12 then [0, 0, 0, 12, 0, 0, 0, 12, 0, 0, 0, 0][a.toNat]?
  else if a.toNat < 12 + count then some 97 else some 0

/-- A string of 1024 characters fills the argument buffer, and the next one is written behind it;
a name of 80 characters does not fit into the process control block. -/
theorem create_out_of_bounds :
    ¬ CreateInBounds (twice 1024) 0 ⟨fun _ => 0, fun _ => 0, fun _ => 0⟩ (fun _ => 0)
        (fun _ => 0) ∧
      ¬ CreateInBounds (twice 80) 0 ⟨fun _ => 0, fun _ => 0, fun _ => 0⟩ (fun _ => 0)
        (fun _ => 0) := by
  constructor
  · rintro ⟨call, name, r, e, -, -⟩
    exact absurd (handler_inBounds_iff.mp ⟨call, e⟩) (by decide +kernel)
  · rintro ⟨call, name, r, e, en, -⟩
    rw [handler_name e] at en
    exact absurd ((copyName_iff _ _).mp ⟨name, en⟩) (by decide)

end DlxOs.Traps
