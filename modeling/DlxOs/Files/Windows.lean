import DlxOs.Files.Buffers

/-!
# What a call reads and writes

A call of `ProcessGetFromFile` reads a window of the file into `localbuf`, ends
it after the last newline, and then only moves forward in a string that ends
inside the buffer. Without a newline in the window it looks for one in front of
the buffer.
-/

namespace DlxOs.Files

open Kernel (Halt ok_bind)

variable {σ : Type} {T : Traps σ} {u fd : ℤ} {file : List Char} {At : ℕ → σ → Prop}
  {s s' : FsState σ} {k : ℕ} {a : BitVec 32} {l rest : List Char} {n : ℕ}

/-! ### Moving forward -/

/-- The pointer moved on over at least `2 * n` characters, none of which is the mark `Z`. -/
def Passes (l rest : List Char) (n : ℕ) : Prop :=
  ∃ passed, l = passed ++ rest ∧ 'Z' ∉ passed ∧ 2 * n ≤ passed.length

namespace Passes

theorem refl (l : List Char) : Passes l l 0 := ⟨[], rfl, List.not_mem_nil, le_rfl⟩

theorem cons {c : Char} (hc : c ≠ 'Z') (h : Passes l rest n) : Passes (c :: l) rest n := by
  obtain ⟨passed, rfl, hZ, hn⟩ := h
  refine ⟨c :: passed, rfl, ?_, ?_⟩
  · rw [List.mem_cons, not_or]
    exact ⟨hc.symm, hZ⟩
  · rw [List.length_cons]
    omega

theorem trans {rest' : List Char} {m : ℕ} (h : Passes l rest n) (h' : Passes rest rest' m) :
    Passes l rest' (n + m) := by
  obtain ⟨passed, rfl, hZ, hn⟩ := h
  obtain ⟨passed', rfl, hZ', hm⟩ := h'
  refine ⟨passed ++ passed', (List.append_assoc ..).symm, ?_, ?_⟩
  · rw [List.mem_append, not_or]
    exact ⟨hZ, hZ'⟩
  · rw [List.length_append]
    omega

theorem suffix (h : Passes l rest n) : rest <:+ l := by
  obtain ⟨passed, rfl, -, -⟩ := h
  exact List.suffix_append passed rest

theorem length (h : Passes l rest n) : 2 * n + rest.length ≤ l.length := by
  obtain ⟨passed, rfl, -, hn⟩ := h
  rw [List.length_append]
  omega

end Passes

theorem ne_Z_of_isspace {c : Char} (h : isspace c = true) : c ≠ 'Z' := by
  rintro rfl
  cases h

theorem ne_Z_of_isxdigit {c : Char} (h : isxdigit c = true) : c ≠ 'Z' := by
  rintro rfl
  exact absurd h (by decide)

theorem skip_passes (l : List Char) : Passes l (l.dropWhile isspace) 0 := by
  induction l with
  | nil => exact Passes.refl []
  | cons c l ih =>
    rw [List.dropWhile_cons]
    split
    · next hc => exact ih.cons (ne_Z_of_isspace hc)
    · exact Passes.refl _

theorem digits_passes (v : BitVec 32) (l : List Char) : Passes l (digits 16 v l).2 0 := by
  induction l generalizing v with
  | nil => exact Passes.refl []
  | cons c l ih =>
    rw [digits]
    split
    · next hc =>
      have hZ : c ≠ 'Z' := by
        rintro rfl
        exact absurd hc (by decide)
      exact (ih _).cons hZ
    · exact Passes.refl _

theorem dstrtol_passes (l : List Char) : Passes l (dstrtol l 16).2 0 := by
  rw [dstrtol_hex, signed_snd]
  refine (skip_passes l).trans (m := 0) ?_
  generalize l.dropWhile isspace = c
  unfold unsigned
  split
  · exact (digits_passes 0 _).cons (by decide)
  · exact digits_passes 0 _

theorem getBytes_passes (l : List Char) : Passes l (getBytes l).1 (getBytes l).2.length := by
  induction l using getBytes.induct with
  | case1 => exact Passes.refl []
  | case2 c hc =>
    rw [getBytes, if_pos hc]
    refine (Passes.refl []).cons ?_
    rintro rfl
    cases hc
  | case3 c hc =>
    rw [getBytes, if_neg hc]
    exact Passes.refl [c]
  | case4 c d l hc ih =>
    rw [getBytes, if_pos hc]
    refine ih.cons ?_
    rintro rfl
    cases hc
  | case5 d l hc =>
    rw [getBytes, if_neg hc, if_pos rfl]
    exact (Passes.refl _).cons (by decide)
  | case6 c d l hc hn hx rest bytes hl ih =>
    rw [getBytes, if_neg hc, if_neg hn, if_pos hx, hl]
    rw [hl] at ih
    obtain ⟨hcx, hdx⟩ := Bool.and_eq_true_iff.mp hx
    have hpair : Passes (c :: d :: l) l 1 := by
      refine ⟨[c, d], rfl, ?_, le_rfl⟩
      simp [(ne_Z_of_isxdigit hcx).symm, (ne_Z_of_isxdigit hdx).symm]
    have h := hpair.trans ih
    rw [Nat.add_comm] at h
    exact h
  | case7 c d l hc hn hx =>
    rw [getBytes, if_neg hc, if_neg hn, if_neg hx]
    exact Passes.refl _

/-! ### Rounds -/

/-- The pointer moved on, and at least two characters were passed for each new byte. -/
def Progress.Moves (p p' : Progress) : Prop :=
  ∃ new, p'.bytes = p.bytes ++ new ∧ Passes p.lpos p'.lpos new.length

namespace Progress

variable {p p' p'' : Progress}

theorem Moves.refl (p : Progress) : p.Moves p := ⟨[], (List.append_nil _).symm, Passes.refl _⟩

theorem Moves.trans (h : p.Moves p') (h' : p'.Moves p'') : p.Moves p'' := by
  obtain ⟨new, hnew, hpasses⟩ := h
  obtain ⟨new', hnew', hpasses'⟩ := h'
  refine ⟨new ++ new', ?_, ?_⟩
  · rw [hnew', hnew, List.append_assoc]
  · rw [List.length_append]
    exact hpasses.trans hpasses'

theorem Moves.spent (h : p.Moves p') :
    2 * p'.bytes.length + p'.lpos.length ≤ 2 * p.bytes.length + p.lpos.length := by
  obtain ⟨new, hnew, hpasses⟩ := h
  have := hpasses.length
  rw [hnew, List.length_append]
  omega

theorem line_moves (p : Progress) : p.Moves p.line.2 := by
  unfold line
  split
  · next l hl =>
    refine ⟨(getBytes l).2, rfl, ?_⟩
    rw [hl]
    exact (getBytes_passes l).cons (by decide)
  · exact Moves.refl p

/-- A line that was read takes its colon at least. -/
theorem line_shorter (h : p.line.1 = true) : p.line.2.lpos.length < p.lpos.length := by
  unfold line at h ⊢
  split at h
  · next l hl =>
    have := (getBytes_passes l).length
    simp only [hl, List.length_cons]
    omega
  · cases h

/-- The address before a line. -/
def readAddress (p : Progress) : Progress :=
  { p with addr := (dstrtol p.lpos 16).1, lpos := (dstrtol p.lpos 16).2 }

theorem readAddress_moves (p : Progress) : p.Moves p.readAddress :=
  ⟨[], (List.append_nil _).symm, dstrtol_passes p.lpos⟩

theorem round_eq (p : Progress) : p.round =
    if dindex p.lpos 'Z' = none ∨ dindex p.lpos ':' = none then (false, p)
    else if p.lpos.head? = some ':' then p.line
    else if p.bytes ≠ [] then (false, p)
    else p.readAddress.line := rfl

theorem round_moves (p : Progress) : p.Moves p.round.2 := by
  rw [round_eq]
  split
  · exact Moves.refl p
  · split
    · exact line_moves p
    · split
      · exact Moves.refl p
      · exact (readAddress_moves p).trans (line_moves _)

theorem round_shorter (h : p.round.1 = true) : p.round.2.lpos.length < p.lpos.length := by
  rw [round_eq] at h ⊢
  split at h
  · cases h
  · next h₁ =>
    rw [if_neg h₁]
    split at h
    · next h₂ =>
      rw [if_pos h₂]
      exact line_shorter h
    · next h₂ =>
      rw [if_neg h₂]
      split at h
      · cases h
      · next h₃ =>
        rw [if_neg h₃]
        have hle := (dstrtol_passes p.lpos).suffix.length_le
        exact (line_shorter h).trans_le hle

theorem loop_moves (fuel : ℕ) (p : Progress) : p.Moves (loop fuel p) := by
  induction fuel generalizing p with
  | zero => exact Moves.refl p
  | succ fuel ih =>
    rw [loop]
    simp only
    split
    · exact (round_moves p).trans (ih _)
    · exact round_moves p

/-- The same progress in a buffer, with what lies behind the string. -/
def onto (p : Progress) (t : List Char) : Progress := { p with lpos := p.lpos ++ '\x00' :: t }

/-- The bytes stored and those that the string can still give fit into `max` bytes. -/
def Fits (max : ℕ) (p : Progress) : Prop :=
  Raw.NulFree p.lpos ∧ 2 * p.bytes.length + p.lpos.length ≤ 2 * max + 1

theorem Fits.moves {max : ℕ} (h : p.Fits max) (hm : p.Moves p') : p'.Fits max := by
  refine ⟨?_, hm.spent.trans h.2⟩
  obtain ⟨new, -, hpasses⟩ := hm
  exact h.1.suffix hpasses.suffix

theorem line_string {max : ℕ} (t : List Char) (h : p.Fits max) :
    Raw.line max (p.onto t) = .ok (p.line.1, p.line.2.onto t) := by
  obtain ⟨lpos, addr, bytes⟩ := p
  cases lpos with
  | nil => rfl
  | cons c l =>
    by_cases hc : c = ':'
    · subst hc
      have hroom : (getBytes l).2.length ≤ max - bytes.length := by
        have hlen := (getBytes_passes l).length
        have hfits := h.2
        simp only [List.length_cons] at hfits
        omega
      have hbytes := Raw.getBytes_string t hroom
      unfold Raw.line onto
      simp only [List.cons_append, Raw.load, ok_bind, List.drop_one, List.tail_cons, hbytes]
      rfl
    · have hline : line ⟨c :: l, addr, bytes⟩ = (false, ⟨c :: l, addr, bytes⟩) := by
        unfold line
        split
        · next h => exact absurd (List.cons.inj h).1 hc
        · rfl
      rw [hline]
      unfold Raw.line onto
      simp only [List.cons_append, Raw.load, ok_bind, ne_eq, hc, not_false_eq_true, if_true]

theorem round_string {max : ℕ} (t : List Char) (h : p.Fits max) :
    Raw.round max (p.onto t) = .ok (p.round.1, p.round.2.onto t) := by
  have hZ : Raw.dindex (p.onto t).lpos 'Z' = _ := Raw.dindex_string t h.1
  have hcolon : Raw.dindex (p.onto t).lpos ':' = _ := Raw.dindex_string t h.1
  have hhead : ∃ c, Raw.load (p.onto t).lpos = .ok c ∧ (c = ':' ↔ p.lpos.head? = some ':') := by
    obtain ⟨lpos, addr, bytes⟩ := p
    cases lpos with
    | nil => exact ⟨'\x00', rfl, by simp⟩
    | cons c l => exact ⟨c, rfl, by simp⟩
  have hnumber : Raw.dstrtol (p.onto t).lpos 16 = _ := Raw.dstrtol_string t h.1
  obtain ⟨c, hload, hc⟩ := hhead
  rw [round_eq, Raw.round, hZ, ok_bind, hcolon, ok_bind, hload, ok_bind]
  simp only [Option.map_eq_none_iff, hc]
  by_cases h₁ : dindex p.lpos 'Z' = none
  · rw [if_pos h₁, if_pos (.inl h₁)]
  · by_cases h₂ : dindex p.lpos ':' = none
    · rw [if_neg h₁, if_pos h₂, if_pos (.inr h₂)]
    · rw [if_neg h₁, if_neg h₂, if_neg (not_or.mpr ⟨h₁, h₂⟩)]
      by_cases h₃ : p.lpos.head? = some ':'
      · rw [if_pos h₃, if_pos h₃]
        exact line_string t h
      · rw [if_neg h₃, if_neg h₃]
        by_cases h₄ : p.bytes ≠ []
        · have h₄' : (p.onto t).bytes ≠ [] := h₄
          rw [if_pos h₄, if_pos h₄']
        · have h₄' : ¬ (p.onto t).bytes ≠ [] := h₄
          rw [if_neg h₄, if_neg h₄', hnumber, ok_bind]
          exact line_string t (h.moves (readAddress_moves p))

/-- As many rounds as the string has characters are enough. -/
theorem loop_string {max fuel rounds : ℕ} (t : List Char) (h : p.Fits max)
    (hfuel : p.lpos.length ≤ fuel) (hrounds : fuel < rounds) :
    Raw.loop max rounds (p.onto t) = .ok ((loop fuel p).onto t) := by
  induction fuel generalizing p rounds with
  | zero =>
    obtain ⟨rounds, rfl⟩ := Nat.exists_eq_add_of_lt hrounds
    have hnil : p.lpos = [] := List.length_eq_zero_iff.mp (Nat.le_zero.mp hfuel)
    have hround : p.round = (false, p) := by
      rw [round_eq, hnil]
      rfl
    rw [Raw.loop, round_string t h, hround]
    rfl
  | succ fuel ih =>
    obtain ⟨rounds, rfl⟩ := Nat.exists_eq_add_of_lt hrounds
    rw [Raw.loop, round_string t h, ok_bind, loop]
    simp only
    split
    · next hmore =>
      have hshort := round_shorter hmore
      exact ih (h.moves (round_moves p)) (by omega) (by omega)
    · rfl

end Progress

/-! ### One call -/

namespace Raw

theorem load_drop {i : ℕ} (h : i < l.length) : load (l.drop i) = .ok l[i] := by
  rw [List.drop_eq_getElem_cons h]
  rfl

/-- The last newline is found. -/
theorem backUp_newline (x z : List Char) {y : List Char} (hy : '\n' ∉ y) :
    backUp (x ++ '\n' :: (y ++ z)) (x ++ '\n' :: y).length = .ok x.length := by
  have h : ∀ j ≤ y.length, backUp (x ++ '\n' :: (y ++ z)) (x.length + 1 + j) = .ok x.length := by
    intro j hj
    induction j with
    | zero =>
      have hload : load ((x ++ '\n' :: (y ++ z)).drop x.length) = .ok '\n' := by
        rw [List.drop_left]
        rfl
      rw [Nat.add_zero, backUp, hload]
      rfl
    | succ j ih =>
      have hload : load ((x ++ '\n' :: (y ++ z)).drop (x.length + 1 + j)) = .ok y[j] := by
        rw [load_drop (by simp only [List.length_append, List.length_cons]; omega)]
        rw [List.getElem_append_right (by omega)]
        simp only [show x.length + 1 + j - x.length = j + 1 by omega, List.getElem_cons_succ]
        rw [List.getElem_append_left (by omega)]
      have hne : y[j] ≠ '\n' := fun e => hy (e ▸ List.getElem_mem (by omega))
      rw [← Nat.add_assoc, backUp, hload, ok_bind, if_neg hne]
      exact ih (by omega)
  have hlen : (x ++ '\n' :: y).length = x.length + 1 + y.length := by
    rw [List.length_append, List.length_cons]
    omega
  rw [hlen]
  exact h y.length le_rfl

/-- Without a newline the loop leaves the buffer at its front. -/
theorem backUp_none {w : List Char} (hw : '\n' ∉ w) (z : List Char) {n : ℕ} (hn : n ≤ w.length) :
    backUp (w ++ z) n = .error .wildAccess := by
  induction n with
  | zero => rfl
  | succ n ih =>
    have hload : load ((w ++ z).drop n) = .ok w[n] := by
      rw [load_drop (by rw [List.length_append]; omega), List.getElem_append_left]
    have hne : w[n] ≠ '\n' := fun e => hw (e ▸ List.getElem_mem (by omega))
    rw [backUp, hload, ok_bind, if_neg hne]
    exact ih (by omega)

theorem store_append (x t : List Char) (c d : Char) :
    store (x ++ c :: t) x.length d = .ok (x ++ d :: t) := by
  rw [store, if_pos (by rw [List.length_append, List.length_cons]; omega)]
  simp

theorem cString_ended (x t : List Char) : cString (x ++ '\x00' :: t) = cString x := by
  unfold cString
  induction x with
  | nil => rfl
  | cons c x ih =>
    rw [List.cons_append, List.takeWhile_cons, List.takeWhile_cons, ih]

end Raw

theorem upToNewline_eq (x : List Char) {y : List Char} (hy : '\n' ∉ y) :
    upToNewline (x ++ '\n' :: y) = x ++ ['\n'] := by
  have hpos : ∀ c ∈ y.reverse, decide (c ≠ '\n') = true := by
    intro c hc
    exact decide_eq_true fun e => hy (e ▸ List.mem_reverse.mp hc)
  rw [upToNewline, List.reverse_append, List.reverse_cons, List.append_assoc,
    List.dropWhile_append_of_pos hpos]
  simp

/-- The last newline of a window. -/
theorem exists_last_newline {w : List Char} (h : '\n' ∈ w) :
    ∃ x y, w = x ++ '\n' :: y ∧ '\n' ∉ y := by
  induction w with
  | nil => cases h
  | cons c w ih =>
    by_cases hw : '\n' ∈ w
    · obtain ⟨x, y, rfl, hy⟩ := ih hw
      exact ⟨c :: x, y, rfl, hy⟩
    · obtain rfl : '\n' = c := (List.mem_cons.mp h).resolve_right hw
      exact ⟨[], w, rfl, hw⟩

theorem exists_two {l : List Char} (h : 2 ≤ l.length) : ∃ c₁ c₂ t, l = c₁ :: c₂ :: t := by
  match l, h with
  | c₁ :: c₂ :: t, _ => exact ⟨c₁, c₂, t, rfl⟩

theorem isPrefix_upToNewline (w : List Char) : upToNewline w <+: w := by
  rw [upToNewline, ← List.reverse_suffix, List.reverse_reverse]
  exact List.dropWhile_suffix _

theorem upToNewline_eq_nil {w : List Char} (hn : '\n' ∉ w) : upToNewline w = [] := by
  rw [upToNewline, List.reverse_eq_nil_iff, List.dropWhile_eq_nil_iff]
  intro c hc
  exact decide_eq_true fun e => hn (e ▸ List.mem_reverse.mp hc)

/-- The string that a call makes of its window. -/
def marked (w : List Char) : List Char := cString (upToNewline w ++ ['Z'])

/-- Where the outer loop of a call ends. -/
def finish (w : List Char) (a : BitVec 32) : Progress :=
  Progress.loop (marked w).length ⟨marked w, a, []⟩

/-- How far a call moves on in the file. -/
def advance (w : List Char) (a : BitVec 32) : ℕ := (marked w).length - (finish w a).lpos.length

/-- The characters that a call reads. -/
def window (file : List Char) (k max : ℕ) : List Char := (file.drop k).take (min (max * 2) 200)

theorem length_window_le (file : List Char) (k max : ℕ) :
    (window file k max).length ≤ min (max * 2) 200 := List.length_take_le ..

theorem window_le_length (file : List Char) (k max : ℕ) :
    (window file k max).length ≤ file.length - k := by
  unfold window
  rw [List.length_take, List.length_drop]
  exact Nat.min_le_right ..

section Finish

variable (w : List Char) (a : BitVec 32)

theorem isPrefix_marked : marked w <+: upToNewline w ++ ['Z'] := List.takeWhile_prefix _

theorem finish_moves : Progress.Moves ⟨marked w, a, []⟩ (finish w a) := Progress.loop_moves _ _

theorem length_marked : (marked w).length = advance w a + (finish w a).lpos.length := by
  have := (finish_moves w a).spent
  simp only [List.length_nil] at this
  unfold advance
  omega

theorem two_bytes_le_advance : 2 * (finish w a).bytes.length ≤ advance w a := by
  have := (finish_moves w a).spent
  simp only [List.length_nil] at this
  unfold advance
  omega

/-- The mark is not passed. -/
theorem advance_le : advance w a ≤ (upToNewline w).length := by
  obtain ⟨new, -, passed, hpassed, hZ, -⟩ := finish_moves w a
  have hpre : passed <+: upToNewline w ++ ['Z'] :=
    List.IsPrefix.trans ⟨_, hpassed.symm⟩ (isPrefix_marked w)
  have hadvance : advance w a = passed.length := by
    have hlen := congrArg List.length hpassed
    rw [List.length_append] at hlen
    exact Nat.sub_eq_of_eq_add hlen
  have hne : passed.length ≠ (upToNewline w ++ ['Z']).length := by
    intro h
    apply hZ
    rw [hpre.eq_of_length h]
    simp
  have hle := hpre.length_le
  simp only [List.length_append, List.length_singleton] at hle hne
  omega

theorem marked_fits {max : ℕ} (hmax : w.length ≤ max * 2) : Progress.Fits max ⟨marked w, a, []⟩ := by
  refine ⟨Raw.nulFree_cString _, ?_⟩
  have hle := (isPrefix_marked w).length_le
  have hw := (isPrefix_upToNewline w).length_le
  simp only [List.length_append, List.length_singleton, List.length_nil] at hle ⊢
  omega

end Finish

section Call

variable {w stale : List Char} {s₁ s₂ : FsState σ} {max : ℕ}
  (e₁ : fsSeek T s fd 0 fsSeekCur = ((k : ℤ), s₁))
  (e₂ : fsRead T s₁ fd (min (max * 2) 200 : ℕ) = (((w.length : ℤ), w), s₂))

include e₁ e₂

/-- At the end of the file. -/
theorem processGetFromFile_empty (hw : w = []) :
    processGetFromFile T s fd a max = .ok (⟨0, [], a⟩, s₂) := by
  rw [processGetFromFile_window e₁ e₂, if_pos hw]

/-- Without a newline in the window. -/
theorem processGetFromFile_wild (hne : w ≠ []) (hn : '\n' ∉ w) :
    processGetFromFile T s fd a max = .error .wildAccess := by
  rw [processGetFromFile_window e₁ e₂, if_neg hne, if_pos (upToNewline_eq_nil hn)]

theorem raw_empty (hw : w = []) :
    Raw.processGetFromFile T stale s fd a max = .ok (⟨0, [], a⟩, s₂) := by
  subst hw
  unfold Raw.processGetFromFile
  rw [e₁]
  simp only
  rw [e₂]
  rfl

theorem raw_wild (hne : w ≠ []) (hn : '\n' ∉ w) :
    Raw.processGetFromFile T stale s fd a max = .error .wildAccess := by
  have hpos : ¬ ((w.length : ℤ) ≤ 0) := by
    have := List.length_pos_iff.mpr hne
    omega
  unfold Raw.processGetFromFile
  rw [e₁]
  simp only
  rw [e₂]
  simp only [if_neg hpos, Int.toNat_natCast]
  rw [Raw.backUp_none hn _ le_rfl]
  rfl

/-- With a newline in the window. -/
theorem processGetFromFile_newline (hn : '\n' ∈ w) : processGetFromFile T s fd a max =
    .ok (⟨(finish w a).bytes.length, (finish w a).bytes, (finish w a).addr⟩,
      (fsSeek T s₂ fd (k + advance w a : ℕ) fsSeekSet).2) := by
  obtain ⟨x, y, hw, hy⟩ := exists_last_newline hn
  have hne : upToNewline w ≠ [] := by
    rw [hw, upToNewline_eq x hy]
    simp
  have hposition : (k : ℤ) + (((marked w).length : ℤ) - ((finish w a).lpos.length : ℤ)) =
      ((k + advance w a : ℕ) : ℤ) := by
    rw [length_marked w a]
    omega
  rw [processGetFromFile_window e₁ e₂, if_neg (List.ne_nil_of_mem hn), if_neg hne, ← hposition]
  rfl

/-- With a newline in the window, the call stays inside the buffers and does what the model on
strings says. -/
theorem raw_newline (hmax : w.length ≤ min (max * 2) 200) (hstale : stale.length = 204)
    (hn : '\n' ∈ w) :
    Raw.processGetFromFile T stale s fd a max = processGetFromFile T s fd a max := by
  rw [processGetFromFile_newline e₁ e₂ hn]
  obtain ⟨x, y, hw, hy⟩ := exists_last_newline hn
  have hlen : w.length = x.length + y.length + 1 := by
    rw [hw]
    simp [add_assoc]
  have hpos : ¬ ((w.length : ℤ) ≤ 0) := by omega
  -- what the read left behind in `localbuf`
  obtain ⟨c₁, c₂, t, ht⟩ : ∃ c₁ c₂ t, y ++ stale.drop w.length = c₁ :: c₂ :: t := by
    apply exists_two
    rw [List.length_append, List.length_drop, hstale]
    omega
  obtain ⟨t', ht'⟩ : ∃ t', x ++ ['\n'] ++ ['Z'] ++ '\x00' :: t = marked w ++ '\x00' :: t' := by
    obtain ⟨t', ht'⟩ := Raw.cString_append (l := x ++ ['\n'] ++ ['Z'] ++ '\x00' :: t) (by simp)
    rw [Raw.cString_ended, ← upToNewline_eq x hy, ← hw] at ht'
    rw [← upToNewline_eq x hy, ← hw]
    exact ⟨t', ht'⟩
  have hbuf : w ++ stale.drop w.length = x ++ '\n' :: c₁ :: c₂ :: t := by
    rw [← ht]
    conv_lhs => rw [hw]
    rw [List.append_assoc, List.cons_append, ← hw]
  have hback : Raw.backUp (x ++ '\n' :: c₁ :: c₂ :: t) w.length = .ok x.length := by
    have h := Raw.backUp_newline x (stale.drop w.length) hy
    rw [ht, ← hw] at h
    exact h
  have hZ : Raw.store (x ++ '\n' :: c₁ :: c₂ :: t) (x.length + 1) 'Z' =
      .ok (x ++ ['\n'] ++ ['Z'] ++ c₂ :: t) := by
    have h := Raw.store_append (x ++ ['\n']) (c₂ :: t) c₁ 'Z'
    simpa using h
  have hnul : Raw.store (x ++ ['\n'] ++ ['Z'] ++ c₂ :: t) (x.length + 2) '\x00' =
      .ok (marked w ++ '\x00' :: t') := by
    have h := Raw.store_append (x ++ ['\n'] ++ ['Z']) t c₂ '\x00'
    rw [ht'] at h
    simpa using h
  have hrounds : (marked w).length < (marked w ++ '\x00' :: t').length + 1 := by
    rw [List.length_append]
    omega
  have hloop : Raw.loop max ((marked w ++ '\x00' :: t').length + 1)
      ⟨marked w ++ '\x00' :: t', a, []⟩ = .ok ((finish w a).onto t') :=
    Progress.loop_string t' (marked_fits w a (hmax.trans (Nat.min_le_left ..))) le_rfl hrounds
  have hposition : (k : ℤ) + (((marked w ++ '\x00' :: t').length : ℤ) -
      (((finish w a).onto t').lpos.length : ℤ)) = ((k + advance w a : ℕ) : ℤ) := by
    have := length_marked w a
    simp only [Progress.onto, List.length_append]
    omega
  unfold Raw.processGetFromFile
  rw [e₁]
  simp only
  rw [e₂]
  simp only [if_neg hpos, Int.toNat_natCast]
  rw [hbuf, hback, ok_bind, hZ, ok_bind, hnul, ok_bind, hloop, ok_bind, hposition]
  rfl

end Call

/-- A call on a window with a newline leaves the file where its loop ended. -/
theorem call_newline {max : ℕ} (o : Ordinary T u file At) (h : Reading At u fd s k)
    (addr : BitVec 32) (hn : '\n' ∈ window file k max) :
    ∃ s', processGetFromFile T s fd addr max =
        .ok (⟨(finish (window file k max) addr).bytes.length, (finish (window file k max) addr).bytes,
          (finish (window file k max) addr).addr⟩, s') ∧
      Reading At u fd s' (k + advance (window file k max) addr) := by
  obtain ⟨s₁, s₂, e₁, e₂, h₂⟩ := window_read o h (min (max * 2) 200)
  refine ⟨_, processGetFromFile_newline e₁ e₂ hn, ?_⟩
  have hle := (advance_le (window file k max) addr).trans (isPrefix_upToNewline _).length_le
  have hfile := window_le_length file k max
  have hpos := List.length_pos_of_mem hn
  rw [h₂.seek]
  exact h₂.moved (o.seek _ _ _ h₂.position (by unfold window at *; omega)).2

end DlxOs.Files
