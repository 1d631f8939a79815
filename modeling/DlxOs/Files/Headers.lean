import DlxOs.Files.Windows

/-!
# What reading the header line accesses

`ProcessGetCodeInfo` searches the first 100 bytes of a file, which it does not
end with a null character. Its searches and its six numbers stay inside these
bytes when something in them stops each one.
-/

namespace DlxOs.Files

open Kernel (Halt ok_bind)

variable {l u w : List Char} {n : ℕ}

/-! ### Numbers up to the end of the buffer -/

/-- Blanks, a sign and hexadecimal digits, each of which may be missing. -/
def Numeral (w : List Char) : Prop :=
  ∃ blanks sign ds : List Char, w = blanks ++ (sign ++ ds) ∧ (∀ c ∈ blanks, isspace c = true) ∧
    (sign = [] ∨ sign = ['-']) ∧ ∀ c ∈ ds, curdigit c < 16

/-- A text of `n` numbers and nothing else. -/
def Numerals : ℕ → List Char → Prop
  | 0, l => l = []
  | n + 1, l => ∃ w l', l = w ++ l' ∧ Numeral w ∧ Numerals n l'

/-- Where `dstrtol` leaves the pointer. -/
def afterNumber (l : List Char) : List Char := (dstrtol l 16).2

theorem afterNumber_eq (l : List Char) :
    afterNumber l = (digits 16 0 (unsigned (l.dropWhile isspace))).2 := by
  rw [afterNumber, dstrtol_hex, signed_snd]

theorem digits_split (v : BitVec 32) (l : List Char) :
    ∃ ds, l = ds ++ (digits 16 v l).2 ∧ ∀ c ∈ ds, curdigit c < 16 := by
  induction l generalizing v with
  | nil => exact ⟨[], rfl, by simp⟩
  | cons c l ih =>
    rw [digits]
    split
    · next hc =>
      obtain ⟨ds, hds, hall⟩ := ih (v * BitVec.ofNat 32 16 + BitVec.ofNat 32 (curdigit c))
      refine ⟨c :: ds, congrArg (c :: ·) hds, ?_⟩
      exact List.forall_mem_cons.mpr ⟨hc, hall⟩
    · exact ⟨[], rfl, by simp⟩

theorem digits_append (v : BitVec 32) {ds : List Char} (h : ∀ c ∈ ds, curdigit c < 16)
    (l : List Char) : ∃ v', (digits 16 v (ds ++ l)).2 = (digits 16 v' l).2 := by
  induction ds generalizing v with
  | nil => exact ⟨v, rfl⟩
  | cons c ds ih =>
    obtain ⟨hc, hall⟩ := List.forall_mem_cons.mp h
    rw [List.cons_append, digits, if_pos hc]
    exact ih _ hall

theorem digits_suffix (v : BitVec 32) {ds : List Char} (h : ∀ c ∈ ds, curdigit c < 16)
    (l : List Char) : (digits 16 v (ds ++ l)).2 <:+ l := by
  obtain ⟨v', hv⟩ := digits_append v h l
  rw [hv]
  exact (digits_passes v' l).suffix

/-- A number is what `dstrtol` takes. -/
theorem afterNumber_split (l : List Char) : ∃ w, l = w ++ afterNumber l ∧ Numeral w := by
  rw [afterNumber_eq]
  have hblanks : ∀ c ∈ l.takeWhile isspace, isspace c = true := fun c hc => List.mem_takeWhile_imp hc
  have hl : l = l.takeWhile isspace ++ l.dropWhile isspace := List.takeWhile_append_dropWhile.symm
  generalize l.dropWhile isspace = c at hl ⊢
  obtain ⟨sign, hc, hsign⟩ : ∃ sign, c = sign ++ unsigned c ∧ (sign = [] ∨ sign = ['-']) := by
    unfold unsigned
    split
    · exact ⟨['-'], rfl, .inr rfl⟩
    · exact ⟨[], rfl, .inl rfl⟩
  obtain ⟨ds, hds, hall⟩ := digits_split 0 (unsigned c)
  refine ⟨l.takeWhile isspace ++ (sign ++ ds), ?_, _, sign, ds, rfl, hblanks, hsign, hall⟩
  rw [List.append_assoc, List.append_assoc, ← hds, ← hc]
  exact hl

theorem isspace_of_curdigit {c : Char} (h : curdigit c < 16) : isspace c = false := by
  by_contra hc
  simp only [isspace, Bool.not_eq_false, Bool.or_eq_true, decide_eq_true_eq] at hc
  obtain (rfl | rfl) | rfl := hc <;> exact absurd h (by decide)

theorem ne_minus_of_curdigit {c : Char} (h : curdigit c < 16) : c ≠ '-' := by
  rintro rfl
  exact absurd h (by decide)

/-- `dstrtol` takes at least any number at the start. -/
theorem afterNumber_greedy (hw : Numeral w) (l : List Char) : afterNumber (w ++ l) <:+ l := by
  obtain ⟨blanks, sign, ds, rfl, hblanks, hsign, hds⟩ := hw
  rw [afterNumber_eq, List.append_assoc, List.dropWhile_append_of_pos hblanks]
  rcases hsign with rfl | rfl
  · cases ds with
    | nil =>
      rw [List.nil_append, List.nil_append, ← afterNumber_eq]
      exact (dstrtol_passes l).suffix
    | cons d ds =>
      have hd := hds d List.mem_cons_self
      rw [List.nil_append, List.cons_append,
        List.dropWhile_cons_of_neg (by simp [isspace_of_curdigit hd]),
        unsigned_of_ne (ne_minus_of_curdigit hd)]
      exact digits_suffix 0 hds l
  · exact digits_suffix 0 hds l

theorem Numeral.nil : Numeral [] := ⟨[], [], [], rfl, by simp, .inl rfl, by simp⟩

theorem Numeral.tail {c : Char} (h : Numeral (c :: w)) : Numeral w := by
  obtain ⟨blanks, sign, ds, hw, hblanks, hsign, hds⟩ := h
  cases blanks with
  | cons b blanks =>
    obtain ⟨-, rfl⟩ := List.cons.inj hw
    exact ⟨blanks, sign, ds, rfl, (List.forall_mem_cons.mp hblanks).2, hsign, hds⟩
  | nil =>
    rcases hsign with rfl | rfl
    · cases ds with
      | nil => cases hw
      | cons d ds =>
        obtain ⟨-, rfl⟩ := List.cons.inj hw
        exact ⟨[], [], w, rfl, by simp, .inl rfl, (List.forall_mem_cons.mp hds).2⟩
    · obtain ⟨-, rfl⟩ := List.cons.inj hw
      exact ⟨[], [], w, rfl, by simp, .inl rfl, hds⟩

theorem Numerals.tail {c : Char} (h : Numerals n (c :: l)) : Numerals n l := by
  induction n generalizing c l with
  | zero => cases h
  | succ n ih =>
    obtain ⟨w, l', hl, hw, hl'⟩ := h
    cases w with
    | nil =>
      rw [List.nil_append] at hl
      rw [← hl] at hl'
      exact ⟨[], l, rfl, Numeral.nil, ih hl'⟩
    | cons b w =>
      obtain ⟨-, rfl⟩ := List.cons.inj hl
      exact ⟨w, l', rfl, hw.tail, hl'⟩

theorem Numerals.suffix (h : Numerals n l) (hs : u <:+ l) : Numerals n u := by
  obtain ⟨front, rfl⟩ := hs
  induction front with
  | nil => exact h
  | cons c front ih => exact ih h.tail

/-- After `n` numbers, the pointer is at the end of the text just when the text is `n` numbers. -/
theorem numerals_iff : afterNumber^[n] l = [] ↔ Numerals n l := by
  induction n generalizing l with
  | zero => rfl
  | succ n ih =>
    rw [Function.iterate_succ_apply, ih]
    constructor
    · intro h
      obtain ⟨w, hl, hw⟩ := afterNumber_split l
      exact ⟨w, afterNumber l, hl, hw, h⟩
    · rintro ⟨w, l', rfl, hw, hl'⟩
      exact hl'.suffix (afterNumber_greedy hw l')

/-! ### Finding a pattern -/

variable {pattern : List Char}

theorem dstrncmp_eq_zero : dstrncmp l pattern pattern.length = 0 ↔ pattern <+: l := by
  induction pattern generalizing l with
  | nil => simp [dstrncmp]
  | cons b pattern ih =>
    cases l with
    | nil => simp [dstrncmp]
    | cons a l =>
      rw [List.length_cons, dstrncmp, List.cons_prefix_cons]
      by_cases hab : a = b
      · rw [if_pos hab, ih]
        simp [hab]
      · rw [if_neg hab]
        constructor
        · intro h
          split at h <;> cases h
        · intro h
          exact absurd h.1.symm hab

theorem dstrstr_eq_none (hne : pattern ≠ []) : dstrstr l pattern = none ↔ ¬ pattern <:+: l := by
  induction l with
  | nil => simpa [dstrstr] using hne
  | cons a l ih =>
    rw [dstrstr, List.infix_cons_iff, not_or, ← ih]
    by_cases hp : pattern <+: a :: l
    · rw [if_pos (dstrncmp_eq_zero.mpr hp)]
      simp [hp]
    · rw [if_neg fun hz => hp (dstrncmp_eq_zero.mp hz)]
      simp [hp]

theorem dindex_eq_some {c : Char} (h : c ∈ l) : dindex l c = some (l.dropWhile (· ≠ c)) := by
  induction l with
  | nil => cases h
  | cons a l ih =>
    rw [dindex]
    by_cases ha : a = c
    · rw [if_pos ha, List.dropWhile_cons_of_neg (by simpa using ha)]
    · rw [if_neg ha, List.dropWhile_cons_of_pos (by simpa using ha)]
      exact ih ((List.mem_cons.mp h).resolve_left (Ne.symm ha))

theorem dropWhile_found {c : Char} (h : c ∈ l) :
    ∃ rest, l.dropWhile (· ≠ c) = c :: rest ∧ rest <:+ l := by
  induction l with
  | nil => cases h
  | cons a l ih =>
    by_cases ha : a = c
    · refine ⟨l, ?_, List.suffix_cons a l⟩
      rw [List.dropWhile_cons_of_neg (by simpa using ha), ha]
    · obtain ⟨rest, hrest, hsuffix⟩ := ih ((List.mem_cons.mp h).resolve_left (Ne.symm ha))
      refine ⟨rest, ?_, hsuffix.trans (List.suffix_cons a l)⟩
      rw [List.dropWhile_cons_of_pos (by simpa using ha), hrest]

/-! ### Text behind what is read -/

section Through

variable {x : List Char}

theorem dropWhile_through {p : Char → Bool} (h : l.dropWhile p ≠ []) (x : List Char) :
    (l ++ x).dropWhile p = l.dropWhile p ++ x := by
  rw [List.dropWhile_append, if_neg (by simpa using h)]

theorem digits_through {v : BitVec 32} (h : (digits 16 v l).2 ≠ []) (x : List Char) :
    digits 16 v (l ++ x) = ((digits 16 v l).1, (digits 16 v l).2 ++ x) := by
  induction l generalizing v with
  | nil => exact absurd rfl h
  | cons c l ih =>
    rw [digits] at h
    rw [List.cons_append, digits, digits]
    split at h
    · next hc =>
      rw [if_pos hc, if_pos hc]
      exact ih h
    · next hc =>
      rw [if_neg hc, if_neg hc]
      rfl

/-- A number that ends inside a text is read without the text behind. -/
theorem dstrtol_through (h : afterNumber l ≠ []) (x : List Char) :
    dstrtol (l ++ x) 16 = ((dstrtol l 16).1, afterNumber l ++ x) := by
  have hdrop : l.dropWhile isspace ≠ [] := by
    intro hnil
    rw [afterNumber_eq, hnil] at h
    exact h rfl
  rw [afterNumber_eq] at h ⊢
  rw [dstrtol_hex, dstrtol_hex, dropWhile_through hdrop]
  generalize l.dropWhile isspace = c at h hdrop
  cases c with
  | nil => exact absurd rfl hdrop
  | cons a c =>
    by_cases ha : a = '-'
    · subst ha
      rw [unsigned] at h
      rw [List.cons_append, unsigned, unsigned, digits_through h]
      rfl
    · rw [unsigned_of_ne ha] at h
      rw [List.cons_append, unsigned_of_ne ha, unsigned_of_ne ha, signed_of_ne ha, signed_of_ne ha,
        ← List.cons_append, digits_through h]

/-- The end of the text is not reached before, since a number does not leave it again. -/
theorem numbers_left (h : afterNumber^[6] l ≠ []) : afterNumber l ≠ [] ∧
    afterNumber (afterNumber l) ≠ [] ∧ afterNumber (afterNumber (afterNumber l)) ≠ [] ∧
    afterNumber (afterNumber (afterNumber (afterNumber l))) ≠ [] ∧
    afterNumber (afterNumber (afterNumber (afterNumber (afterNumber l)))) ≠ [] := by
  have back : ∀ {m : List Char}, afterNumber m ≠ [] → m ≠ [] := by
    rintro m hm rfl
    exact hm rfl
  have h₅ := back h
  have h₄ := back h₅
  have h₃ := back h₄
  have h₂ := back h₃
  exact ⟨back h₂, h₂, h₃, h₄, h₅⟩

theorem headerNumbers_through (h : afterNumber^[6] l ≠ []) (x : List Char) :
    headerNumbers (l ++ x) = headerNumbers l := by
  have hrest : ∀ m, (dstrtol m 16).2 = afterNumber m := fun _ => rfl
  obtain ⟨h₁, h₂, h₃, h₄, h₅⟩ := numbers_left h
  simp only [headerNumbers, hrest, dstrtol_through h₁, dstrtol_through h₂, dstrtol_through h₃,
    dstrtol_through h₄, dstrtol_through h₅, dstrtol_through (l := _) h]

end Through

/-! ### Buffers without a null character -/

namespace Raw

theorem skip_eq (l : List Char) : skip l =
    if l.dropWhile isspace = [] then .error .wildAccess else .ok (l.dropWhile isspace) := by
  induction l with
  | nil => rfl
  | cons c l ih =>
    rw [skip, List.dropWhile_cons]
    split
    · exact ih
    · rfl

theorem digits_eq (v : BitVec 32) (l : List Char) : digits 16 v l =
    if (Files.digits 16 v l).2 = [] then .error .wildAccess else .ok (Files.digits 16 v l) := by
  induction l generalizing v with
  | nil => rfl
  | cons c l ih =>
    rw [digits, Files.digits]
    split
    · exact ih _
    · rfl

theorem dstrtol_eq (h : NulFree l) : dstrtol l 16 =
    if afterNumber l = [] then .error .wildAccess else .ok (Files.dstrtol l 16) := by
  have hd : NulFree (l.dropWhile isspace) := h.suffix (List.dropWhile_suffix _)
  rw [afterNumber_eq, dstrtol_hex, skip_eq, Files.dstrtol_hex]
  generalize l.dropWhile isspace = c at hd
  cases c with
  | nil => rfl
  | cons a c =>
    rw [if_neg (List.cons_ne_nil a c), ok_bind, load, ok_bind, if_neg hd.head, digits_eq]
    split <;> rfl

theorem afterNumber_nulFree (h : NulFree l) : NulFree (afterNumber l) :=
  h.suffix (dstrtol_passes l).suffix

/-- Six numbers stay inside when something is left behind the last one. -/
theorem headerNumbers_eq (h : NulFree l) : headerNumbers l =
    if afterNumber^[6] l = [] then .error .wildAccess else .ok (Files.headerNumbers l) := by
  have step : ∀ {m : List Char} {α : Type} (f : BitVec 32 × List Char → Except Halt α), NulFree m →
      (dstrtol m 16 >>= f) = if afterNumber m = [] then .error .wildAccess
        else f (Files.dstrtol m 16) := by
    intro m α f hm
    rw [dstrtol_eq hm]
    split <;> rfl
  have h₁ := afterNumber_nulFree h
  have h₂ := afterNumber_nulFree h₁
  have h₃ := afterNumber_nulFree h₂
  have h₄ := afterNumber_nulFree h₃
  have h₅ := afterNumber_nulFree h₄
  have hrest : ∀ m, (Files.dstrtol m 16).2 = afterNumber m := fun _ => rfl
  unfold headerNumbers
  simp only [step _ h, step _ h₁, step _ h₂, step _ h₃, step _ h₄, step _ h₅, hrest,
    Function.iterate_succ_apply, Function.iterate_zero_apply]
  by_cases e : afterNumber (afterNumber (afterNumber (afterNumber (afterNumber (afterNumber l))))) = []
  · simp only [e, if_true, ite_self]
  · obtain ⟨e₁, e₂, e₃, e₄, e₅⟩ := numbers_left e
    simp only [e, e₁, e₂, e₃, e₄, e₅, if_false]
    simp only [Files.headerNumbers, hrest]

theorem dindex_eq (h : NulFree l) (c : Char) : dindex l c =
    if c ∈ l then .ok (some (l.dropWhile (· ≠ c))) else .error .wildAccess := by
  induction l with
  | nil => rfl
  | cons a l ih =>
    rw [dindex, if_neg h.head]
    by_cases ha : a = c
    · rw [if_pos ha, if_pos (ha ▸ List.mem_cons_self), List.dropWhile_cons_of_neg (by simpa using ha)]
    · rw [if_neg ha, ih h.tail, List.dropWhile_cons_of_pos (by simpa using ha)]
      simp only [List.mem_cons, Ne.symm ha, false_or]

theorem dstrncmp_wild (l pattern : List Char) (n : ℕ) : dstrncmp l pattern n = .error .wildAccess ∨
    dstrncmp l pattern n = .ok (Files.dstrncmp l pattern n) := by
  induction n generalizing l pattern with
  | zero => simp [dstrncmp, Files.dstrncmp]
  | succ n ih =>
    cases pattern with
    | nil => simp [dstrncmp, Files.dstrncmp]
    | cons b pattern =>
      cases l with
      | nil => exact .inl rfl
      | cons a l =>
        rw [dstrncmp, Files.dstrncmp]
        split
        · exact ih l pattern
        · exact .inr rfl

theorem dstrncmp_eq (h : pattern.length ≤ l.length) :
    dstrncmp l pattern pattern.length = .ok (Files.dstrncmp l pattern pattern.length) := by
  induction pattern generalizing l with
  | nil => simp [dstrncmp, Files.dstrncmp]
  | cons b pattern ih =>
    cases l with
    | nil => cases h
    | cons a l =>
      rw [List.length_cons, dstrncmp, Files.dstrncmp]
      split
      · exact ih (Nat.le_of_succ_le_succ h)
      · rfl

/-- The search stays inside when it finds the pattern. -/
theorem dstrstr_eq (hne : pattern ≠ []) (h : NulFree l) : dstrstr l pattern =
    if pattern <:+: l then .ok (Files.dstrstr l pattern) else .error .wildAccess := by
  induction l with
  | nil => rw [if_neg fun hp => hne (List.infix_nil.mp hp), dstrstr]
  | cons a l ih =>
    rw [dstrstr, if_neg h.head, Files.dstrstr]
    by_cases hp : pattern <:+: a :: l
    · rw [if_pos hp, dstrncmp_eq hp.length_le, ok_bind]
      split
      · rfl
      · next hzero =>
        have hin := (List.infix_cons_iff.mp hp).resolve_left fun hpre =>
          hzero (dstrncmp_eq_zero.mpr hpre)
        rw [ih h.tail, if_pos hin]
    · have htail : ¬ pattern <:+: l := fun hin => hp (List.infix_cons hin)
      rw [if_neg hp]
      rcases dstrncmp_wild (a :: l) pattern pattern.length with horder | horder
      · rw [horder]
        rfl
      · have hzero : Files.dstrncmp (a :: l) pattern pattern.length ≠ 0 := fun hz =>
          hp (dstrncmp_eq_zero.mp hz).isInfix
        rw [horder, ok_bind, if_neg hzero, ih h.tail, if_neg htail]

end Raw

/-! ### The header line -/

/-- What `ProcessGetCodeInfo` makes of the string in its buffer. -/
def header (stack : Frame) (buf : List Char) : Option (CodeInfo × ℤ) :=
  match dstrstr buf "start:".toList with
  | none => none
  | some _ => some (headerNumbers (((dindex buf ':').getD []).drop 1), firstLine stack buf)

/-- The text behind the first colon. -/
def afterColon (buf : List Char) : List Char := (buf.dropWhile (· ≠ ':')).drop 1

/-- Something in the buffer ends each search and the last number: a null character, or else the
text `start:`, a newline, and a character that is not part of the six numbers. -/
def HeaderEnds (buf : List Char) : Prop :=
  '\x00' ∈ buf ∨
    "start:".toList <:+: buf ∧ '\n' ∈ buf ∧ ¬ Numerals 6 (afterColon buf)

section Header

variable {buf cs : List Char}

theorem start_ne_nil : "start:".toList ≠ [] := by simp

theorem start_nulFree : Raw.NulFree "start:".toList := by
  intro c hc
  rintro rfl
  simp at hc

theorem colon_mem (h : "start:".toList <:+: l) : ':' ∈ l := h.subset (by simp)

theorem firstLine_string (stack : Frame) (t : List Char) (h : Raw.NulFree cs) :
    Raw.firstLine stack.address (cs ++ '\x00' :: t) = .ok (firstLine stack cs) := by
  rw [Raw.firstLine, Raw.dindex_string t h, ok_bind, firstLine]
  cases dindex cs '\n' with
  | none => rfl
  | some rest =>
    simp only [Option.map_some, List.length_append]
    congr 1
    omega

theorem headerNumbers_string (t : List Char) (h : Raw.NulFree cs) :
    Raw.headerNumbers (cs ++ '\x00' :: t) = .ok (headerNumbers cs) := by
  have hrest : ∀ m, (dstrtol m 16).2 = afterNumber m := fun _ => rfl
  have h₁ := Raw.afterNumber_nulFree h
  have h₂ := Raw.afterNumber_nulFree h₁
  have h₃ := Raw.afterNumber_nulFree h₂
  have h₄ := Raw.afterNumber_nulFree h₃
  have h₅ := Raw.afterNumber_nulFree h₄
  simp only [Raw.headerNumbers, Raw.dstrtol_string t h, hrest, ok_bind, Raw.dstrtol_string t h₁,
    Raw.dstrtol_string t h₂, Raw.dstrtol_string t h₃, Raw.dstrtol_string t h₄,
    Raw.dstrtol_string t h₅, headerNumbers]

theorem header_string (stack : Frame) (t : List Char) (h : Raw.NulFree cs) :
    Raw.header stack.address (cs ++ '\x00' :: t) = .ok (header stack cs) := by
  rw [Raw.header, Raw.dstrstr_string t start_nulFree h, ok_bind, header]
  cases hs : dstrstr cs "start:".toList with
  | none => rfl
  | some rest =>
    have hstart : "start:".toList <:+: cs := by
      by_contra hno
      rw [(dstrstr_eq_none start_ne_nil).mpr hno] at hs
      cases hs
    have hcolon := dindex_eq_some (colon_mem hstart)
    obtain ⟨pos, hpos, hsuffix⟩ := dropWhile_found (colon_mem hstart)
    have hfree := h.suffix hsuffix
    simp only [Option.map_some, Raw.dindex_string t h, hcolon, ok_bind, hpos, List.cons_append,
      List.drop_one, List.tail_cons, headerNumbers_string t hfree, firstLine_string stack t h,
      Option.getD_some]

theorem header_start (stack : Frame) (hstart : "start:".toList <:+: l) :
    header stack l = some (headerNumbers (afterColon l), firstLine stack l) := by
  obtain ⟨r, hr⟩ := Option.ne_none_iff_exists'.mp
    fun hnone => (dstrstr_eq_none start_ne_nil).mp hnone hstart
  rw [header, hr, dindex_eq_some (colon_mem hstart)]
  rfl

theorem raw_header_start (address : ℤ) (h : Raw.NulFree l) (hstart : "start:".toList <:+: l) :
    Raw.header address l = (do
      let info ← Raw.headerNumbers (afterColon l)
      let line ← Raw.firstLine address l
      .ok (some (info, line))) := by
  obtain ⟨r, hr⟩ := Option.ne_none_iff_exists'.mp
    fun hnone => (dstrstr_eq_none start_ne_nil).mp hnone hstart
  rw [Raw.header, Raw.dstrstr_eq start_ne_nil h, if_pos hstart, hr, ok_bind, Raw.dindex_eq h,
    if_pos (colon_mem hstart)]
  rfl

theorem afterColon_suffix (l : List Char) : afterColon l <:+ l :=
  (List.drop_suffix 1 _).trans (List.dropWhile_suffix _)

theorem afterColon_append (hcolon : ':' ∈ l) (x : List Char) :
    afterColon (l ++ x) = afterColon l ++ x := by
  obtain ⟨pos, hpos, -⟩ := dropWhile_found hcolon
  rw [afterColon, afterColon, dropWhile_through (by simpa using hcolon), hpos]
  rfl

theorem firstLine_inside (stack : Frame) (h : Raw.NulFree l) (hline : '\n' ∈ l) (x : List Char) :
    Raw.firstLine stack.address l = .ok (firstLine stack (l ++ x)) := by
  have hthrough : (l ++ x).dropWhile (· ≠ '\n') = l.dropWhile (· ≠ '\n') ++ x :=
    dropWhile_through (by simpa using hline) x
  rw [Raw.firstLine, Raw.dindex_eq h, if_pos hline, ok_bind, firstLine,
    dindex_eq_some (List.mem_append_left x hline), hthrough]
  simp only [List.length_append]
  congr 1
  omega

/-- The header line is read inside the buffer, whatever lies behind. -/
theorem header_inside (stack : Frame) (x : List Char) (h : Raw.NulFree l)
    (hstart : "start:".toList <:+: l) (hline : '\n' ∈ l) (hnumbers : ¬ Numerals 6 (afterColon l)) :
    Raw.header stack.address l = .ok (header stack (l ++ x)) := by
  have hleft : afterNumber^[6] (afterColon l) ≠ [] := fun hz => hnumbers (numerals_iff.mp hz)
  have hfree := h.suffix (afterColon_suffix l)
  have hstart' : "start:".toList <:+: l ++ x := hstart.trans (List.prefix_append l x).isInfix
  rw [raw_header_start _ h hstart, Raw.headerNumbers_eq hfree, if_neg hleft, ok_bind,
    firstLine_inside stack h hline x, ok_bind, header_start stack hstart',
    afterColon_append (colon_mem hstart), headerNumbers_through hleft]

theorem header_outside (address : ℤ) (h : Raw.NulFree l)
    (hmissing : "start:".toList <:+: l → '\n' ∈ l → Numerals 6 (afterColon l)) :
    Raw.header address l = .error .wildAccess := by
  by_cases hstart : "start:".toList <:+: l
  · rw [raw_header_start _ h hstart, Raw.headerNumbers_eq (h.suffix (afterColon_suffix l))]
    by_cases hline : '\n' ∈ l
    · rw [if_pos (numerals_iff.mpr (hmissing hstart hline))]
      rfl
    · rw [Raw.firstLine, Raw.dindex_eq h, if_neg hline]
      split <;> rfl
  · rw [Raw.header, Raw.dstrstr_eq start_ne_nil h, if_neg hstart]
    rfl

theorem nulFree_iff : Raw.NulFree buf ↔ '\x00' ∉ buf := by
  constructor
  · intro h hmem
    exact h _ hmem rfl
  · rintro h c hc rfl
    exact h hc

theorem cString_nulFree (h : Raw.NulFree cs) (x : List Char) :
    cString (cs ++ x) = cs ++ cString x := by
  unfold cString
  exact List.takeWhile_append_of_pos fun c hc => decide_eq_true (h c hc)

/-- The string model is right about a buffer in which every search and the last number end. -/
theorem header_ends (stack : Frame) (h : HeaderEnds buf) :
    Raw.header stack.address buf = .ok (header stack (cString (buf ++ stack.behind))) := by
  by_cases hnul : '\x00' ∈ buf
  · obtain ⟨t, ht⟩ := Raw.cString_append hnul
    have hfree := Raw.nulFree_cString buf
    generalize cString buf = cs at ht hfree
    subst ht
    have hcs : cString (cs ++ '\x00' :: t ++ stack.behind) = cs := by
      rw [List.append_assoc, cString_nulFree hfree]
      simp [cString]
    rw [header_string stack t hfree, hcs]
  · obtain ⟨hstart, hline, hnumbers⟩ := h.resolve_left hnul
    have hfree := nulFree_iff.mpr hnul
    rw [header_inside stack (cString stack.behind) hfree hstart hline hnumbers,
      cString_nulFree hfree]

theorem header_wild (address : ℤ) (h : ¬ HeaderEnds buf) :
    Raw.header address buf = .error .wildAccess := by
  rw [HeaderEnds, not_or] at h
  refine header_outside address (nulFree_iff.mpr h.1) ?_
  intro hstart hline
  by_contra hnumbers
  exact h.2 ⟨hstart, hline, hnumbers⟩

end Header

end DlxOs.Files
