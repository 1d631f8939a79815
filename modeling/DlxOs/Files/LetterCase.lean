import Mathlib.Data.List.Forall2
import DlxOs.Files.Safety

/-!
# Loading and the case of hexadecimal letters

Two bodies that differ in the case of the letters A to F are loaded side by
side. `getxvalue` and `dstrtol` read both alike, but `isxdigit` takes `A` for
the only capital digit. As long as it says the same of each pair that a call
tests, both deliver the same chunks.
-/

namespace DlxOs.Files

open Kernel (Halt)

variable {σ σ' : Type} {T : Traps σ} {T' : Traps σ'} {u u' fd fd' : ℤ} {file file' : List Char}
  {At : ℕ → σ → Prop} {At' : ℕ → σ' → Prop} {c c' d d' : Char} {l l' : List Char}

/-! ### Texts that differ in the case of letters -/

/-- The letters a to f, and A to F. -/
def lowerHex (i : Fin 6) : Char := Char.ofNat (97 + i.val)

def upperHex (i : Fin 6) : Char := Char.ofNat (65 + i.val)

/-- The same character, or one of the letters in both cases. -/
def SameLetter (c c' : Char) : Prop :=
  c = c' ∨ ∃ i, c = lowerHex i ∧ c' = upperHex i ∨ c = upperHex i ∧ c' = lowerHex i

/-- The same text but for the case of the letters. -/
abbrev SameText : List Char → List Char → Prop := List.Forall₂ SameLetter

namespace SameLetter

/-- What is true of each letter in both cases is true of the same letters. -/
theorem elim {α : Type} {f : Char → α} (h : SameLetter c c')
    (letters : ∀ i, f (lowerHex i) = f (upperHex i)) : f c = f c' := by
  rcases h with rfl | ⟨i, ⟨rfl, rfl⟩ | ⟨rfl, rfl⟩⟩
  · rfl
  · exact letters i
  · exact (letters i).symm

theorem curdigit (h : SameLetter c c') : curdigit c = Files.curdigit c' := h.elim (by decide)

theorem getxvalue (h : SameLetter c c') : getxvalue c = Files.getxvalue c' := h.elim (by decide)

theorem isspace (h : SameLetter c c') : isspace c = Files.isspace c' := h.elim (by decide)

/-- No letter is one of the marks that the loader looks for. -/
theorem mark (h : SameLetter c c') {m : Char} (hm : ∀ i, lowerHex i ≠ m ∧ upperHex i ≠ m) :
    (c = m) = (c' = m) :=
  h.elim (f := fun c => c = m) fun i => propext (iff_of_false (hm i).1 (hm i).2)

end SameLetter

namespace SameText

variable {p : Char → Bool}

theorem takeWhile (h : SameText l l') (hp : ∀ {c c'}, SameLetter c c' → p c = p c') :
    SameText (l.takeWhile p) (l'.takeWhile p) := by
  induction h with
  | nil => exact .nil
  | cons hc _ ih =>
    rw [List.takeWhile_cons, List.takeWhile_cons, hp hc]
    split
    · exact .cons hc ih
    · exact .nil

theorem dropWhile (h : SameText l l') (hp : ∀ {c c'}, SameLetter c c' → p c = p c') :
    SameText (l.dropWhile p) (l'.dropWhile p) := by
  induction h with
  | nil => exact .nil
  | cons hc h ih =>
    rw [List.dropWhile_cons, List.dropWhile_cons, hp hc]
    split
    · exact ih
    · exact .cons hc h

theorem cString (h : SameText l l') : SameText (cString l) (Files.cString l') := by
  refine h.takeWhile fun hc => ?_
  simp only [ne_eq, hc.mark (m := '\x00') (by decide)]

theorem upToNewline (h : SameText l l') : SameText (upToNewline l) (Files.upToNewline l') := by
  refine List.rel_reverse (SameText.dropWhile (List.rel_reverse h) fun hc => ?_)
  simp only [ne_eq, hc.mark (m := '\n') (by decide)]

theorem dindex_none (h : SameText l l') {m : Char} (hm : ∀ i, lowerHex i ≠ m ∧ upperHex i ≠ m) :
    dindex l m = none ↔ dindex l' m = none := by
  induction h with
  | nil => rfl
  | cons hc h ih =>
    rw [dindex, dindex]
    simp only [hc.mark hm]
    split
    · simp
    · exact ih

theorem digits (h : SameText l l') (base : ℕ) (v : BitVec 32) :
    (digits base v l).1 = (Files.digits base v l').1 ∧
      SameText (Files.digits base v l).2 (Files.digits base v l').2 := by
  induction h generalizing v with
  | nil => exact ⟨rfl, .nil⟩
  | cons hc h ih =>
    rw [Files.digits, Files.digits, hc.curdigit]
    split
    · exact ih _
    · exact ⟨rfl, .cons hc h⟩

theorem dstrtol (h : SameText l l') : (dstrtol l 16).1 = (Files.dstrtol l' 16).1 ∧
    SameText (Files.dstrtol l 16).2 (Files.dstrtol l' 16).2 := by
  rw [dstrtol_hex, dstrtol_hex, signed_snd, signed_snd]
  have hdrop := h.dropWhile fun hc => hc.isspace
  generalize l.dropWhile isspace = m at hdrop
  generalize l'.dropWhile isspace = m' at hdrop
  cases hdrop with
  | nil => exact ⟨rfl, .nil⟩
  | @cons c c' l l' hc h =>
    by_cases hsign : c = '-'
    · have hsign' : c' = '-' := by
        rw [← hc.mark (m := '-') (by decide)]
        exact hsign
      subst hsign
      subst hsign'
      obtain ⟨hv, hrest⟩ := digits h 16 0
      exact ⟨congrArg Neg.neg hv, hrest⟩
    · have hsign' : c' ≠ '-' := by
        rw [Ne, ← hc.mark (m := '-') (by decide)]
        exact hsign
      rw [unsigned_of_ne hsign, unsigned_of_ne hsign', signed_of_ne hsign, signed_of_ne hsign']
      exact digits (.cons hc h) 16 0

end SameText

/-! ### One call -/

/-- `isxdigit` says the same of each pair of characters that the inner loop tests. -/
def BytesAgree : List Char → List Char → Prop
  | c :: d :: l, c' :: d' :: l' =>
    if c = ' ' || c = '\t' then BytesAgree (d :: l) (d' :: l')
    else if c = '\n' then True
    else (isxdigit c && isxdigit d) = (isxdigit c' && isxdigit d') ∧
      (isxdigit c && isxdigit d → BytesAgree l l')
  | _, _ => True

instance decidableBytesAgree : ∀ l l', Decidable (BytesAgree l l')
  | c :: d :: l, c' :: d' :: l' =>
    have := decidableBytesAgree (d :: l) (d' :: l')
    have := decidableBytesAgree l l'
    inferInstanceAs (Decidable (if c = ' ' || c = '\t' then BytesAgree (d :: l) (d' :: l')
      else if c = '\n' then True
      else (isxdigit c && isxdigit d) = (isxdigit c' && isxdigit d') ∧
        (isxdigit c && isxdigit d → BytesAgree l l')))
  | [], _ => isTrue trivial
  | [_], _ => isTrue trivial
  | _ :: _ :: _, [] => isTrue trivial
  | _ :: _ :: _, [_] => isTrue trivial

/-- The same for a line, on which the first of the two is at its colon or not. -/
def Progress.LineAgrees (p p' : Progress) : Prop :=
  p.lpos.head? = some ':' → BytesAgree (p.lpos.drop 1) (p'.lpos.drop 1)

def Progress.RoundAgrees (p p' : Progress) : Prop :=
  dindex p.lpos 'Z' ≠ none → dindex p.lpos ':' ≠ none →
    if p.lpos.head? = some ':' then p.LineAgrees p'
    else p.bytes = [] → p.readAddress.LineAgrees p'.readAddress

instance (p p' : Progress) : Decidable (p.LineAgrees p') :=
  inferInstanceAs (Decidable (p.lpos.head? = some ':' → BytesAgree (p.lpos.drop 1) (p'.lpos.drop 1)))

instance (p p' : Progress) : Decidable (p.RoundAgrees p') :=
  inferInstanceAs (Decidable (dindex p.lpos 'Z' ≠ none → dindex p.lpos ':' ≠ none →
    if p.lpos.head? = some ':' then p.LineAgrees p'
    else p.bytes = [] → p.readAddress.LineAgrees p'.readAddress))

/-- The same in each round. -/
def Progress.LoopAgrees : ℕ → Progress → Progress → Prop
  | 0, _, _ => True
  | fuel + 1, p, p' => p.RoundAgrees p' ∧ (p.round.1 = true → LoopAgrees fuel p.round.2 p'.round.2)

instance Progress.decidableLoopAgrees : ∀ fuel (p p' : Progress), Decidable (LoopAgrees fuel p p')
  | 0, _, _ => isTrue trivial
  | fuel + 1, p, p' =>
    have := decidableLoopAgrees fuel p.round.2 p'.round.2
    inferInstanceAs (Decidable (p.RoundAgrees p' ∧
      (p.round.1 = true → LoopAgrees fuel p.round.2 p'.round.2)))

/-- The same in a call with these windows. -/
def CallAgrees (w w' : List Char) (addr : BitVec 32) : Prop :=
  Progress.LoopAgrees (marked w).length ⟨marked w, addr, []⟩ ⟨marked w', addr, []⟩

instance (w w' : List Char) (addr : BitVec 32) : Decidable (CallAgrees w w' addr) :=
  inferInstanceAs (Decidable (Progress.LoopAgrees ..))

example : CallAgrees "0:0A B1\n".toList "0:0a B1\n".toList 0 := by decide

example : ¬ CallAgrees "0:0B\n".toList "0:0b\n".toList 0 := by decide

namespace SameLetter

theorem blank (h : SameLetter c c') :
    (decide (c = ' ') || decide (c = '\t')) = (decide (c' = ' ') || decide (c' = '\t')) := by
  simp only [h.mark (m := ' ') (by decide), h.mark (m := '\t') (by decide)]

theorem newline (h : SameLetter c c') : (c = '\n') = (c' = '\n') := h.mark (by decide)

end SameLetter

theorem getBytes_agree (h : SameText l l') (agree : BytesAgree l l') :
    (getBytes l).2 = (getBytes l').2 ∧ SameText (getBytes l).1 (getBytes l').1 := by
  induction l using getBytes.induct generalizing l' with
  | case1 =>
    cases h
    exact ⟨rfl, .nil⟩
  | case2 c hc =>
    obtain ⟨c', l', hcc, hnil, rfl⟩ := List.forall₂_cons_left_iff.mp h
    cases hnil
    have hc' : (decide (c' = '\n') || decide (c' = ' ') || decide (c' = '\t')) = true := by
      rw [Bool.or_assoc, ← hcc.blank, ← Bool.or_assoc]
      simpa only [hcc.newline] using hc
    rw [getBytes, getBytes, if_pos hc, if_pos hc']
    exact ⟨rfl, .nil⟩
  | case3 c hc =>
    obtain ⟨c', l', hcc, hnil, rfl⟩ := List.forall₂_cons_left_iff.mp h
    cases hnil
    have hc' : ¬ (decide (c' = '\n') || decide (c' = ' ') || decide (c' = '\t')) = true := by
      rw [Bool.or_assoc, ← hcc.blank, ← Bool.or_assoc]
      simpa only [hcc.newline] using hc
    rw [getBytes, getBytes, if_neg hc, if_neg hc']
    exact ⟨rfl, .cons hcc .nil⟩
  | case4 c d l hc ih =>
    obtain ⟨c', m, hcc, hm, rfl⟩ := List.forall₂_cons_left_iff.mp h
    obtain ⟨d', l', hdd, hl, rfl⟩ := List.forall₂_cons_left_iff.mp hm
    rw [BytesAgree, if_pos hc] at agree
    rw [getBytes, getBytes, if_pos hc, if_pos (hcc.blank ▸ hc)]
    exact ih hm agree
  | case5 d l hc =>
    obtain ⟨c', m, hcc, hm, rfl⟩ := List.forall₂_cons_left_iff.mp h
    obtain ⟨d', l', hdd, hl, rfl⟩ := List.forall₂_cons_left_iff.mp hm
    obtain rfl : c' = '\n' := hcc.newline ▸ rfl
    rw [getBytes, getBytes, if_neg hc, if_pos rfl, if_neg hc, if_pos rfl]
    exact ⟨rfl, hm⟩
  | case6 c d l hc hn hx rest bytes hl ih =>
    obtain ⟨c', m, hcc, hm, rfl⟩ := List.forall₂_cons_left_iff.mp h
    obtain ⟨d', l', hdd, hl', rfl⟩ := List.forall₂_cons_left_iff.mp hm
    rw [BytesAgree, if_neg hc, if_neg hn] at agree
    obtain ⟨hx', hrest⟩ := agree
    have hpair : (isxdigit c' && isxdigit d') = true := hx' ▸ hx
    obtain ⟨hbytes, hsame⟩ := ih hl' (hrest hx)
    rw [getBytes, getBytes, if_neg hc, if_neg hn, if_pos hx, if_neg (hcc.blank ▸ hc),
      if_neg (hcc.newline ▸ hn), if_pos hpair, hcc.getxvalue, hdd.getxvalue]
    exact ⟨congrArg (BitVec.ofNat 8 (getxvalue c' * 16 + getxvalue d') :: ·) hbytes, hsame⟩
  | case7 c d l hc hn hx =>
    obtain ⟨c', m, hcc, hm, rfl⟩ := List.forall₂_cons_left_iff.mp h
    obtain ⟨d', l', hdd, hl', rfl⟩ := List.forall₂_cons_left_iff.mp hm
    rw [BytesAgree, if_neg hc, if_neg hn] at agree
    have hpair : ¬ (isxdigit c' && isxdigit d') = true := agree.1 ▸ hx
    rw [getBytes, getBytes, if_neg hc, if_neg hn, if_neg hx, if_neg (hcc.blank ▸ hc),
      if_neg (hcc.newline ▸ hn), if_neg hpair]
    exact ⟨rfl, h⟩

namespace Progress

variable {p p' : Progress}

/-- The same bytes and address, at the same place. -/
structure Like (p p' : Progress) : Prop where
  addr : p.addr = p'.addr
  bytes : p.bytes = p'.bytes
  lpos : SameText p.lpos p'.lpos

theorem Like.head (h : p.Like p') : (p.lpos.head? = some ':') = (p'.lpos.head? = some ':') := by
  obtain ⟨-, -, hl⟩ := h
  generalize p.lpos = l at hl
  generalize p'.lpos = l' at hl
  cases hl with
  | nil => rfl
  | cons hc _ => simp only [List.head?_cons, Option.some.injEq, hc.mark (m := ':') (by decide)]

theorem Like.readAddress (h : p.Like p') : p.readAddress.Like p'.readAddress :=
  ⟨h.lpos.dstrtol.1, h.bytes, h.lpos.dstrtol.2⟩

theorem line_eq (p : Progress) : p.line = if p.lpos.head? = some ':' then
    (true, ⟨(getBytes (p.lpos.drop 1)).1,
      p.addr + BitVec.ofNat 32 (getBytes (p.lpos.drop 1)).2.length,
      p.bytes ++ (getBytes (p.lpos.drop 1)).2⟩)
    else (false, p) := by
  unfold line
  split
  · next l hl => rw [hl, List.head?_cons, if_pos rfl, List.drop_one, List.tail_cons]
  · next hl =>
    rw [if_neg]
    intro hhead
    obtain ⟨l, hcons⟩ := List.head?_eq_some_iff.mp hhead
    exact hl l hcons

theorem line_like (h : p.Like p') (agree : p.LineAgrees p') :
    p.line.1 = p'.line.1 ∧ p.line.2.Like p'.line.2 := by
  rw [line_eq, line_eq]
  by_cases hhead : p.lpos.head? = some ':'
  · obtain ⟨hbytes, hrest⟩ := getBytes_agree (List.forall₂_drop 1 h.lpos) (agree hhead)
    rw [if_pos hhead, if_pos (h.head ▸ hhead)]
    refine ⟨rfl, ?_, ?_, hrest⟩
    · simp only [h.addr, hbytes]
    · simp only [h.bytes, hbytes]
  · rw [if_neg hhead, if_neg (h.head ▸ hhead)]
    exact ⟨rfl, h⟩

theorem round_like (h : p.Like p') (agree : p.RoundAgrees p') :
    p.round.1 = p'.round.1 ∧ p.round.2.Like p'.round.2 := by
  have hZ := h.lpos.dindex_none (m := 'Z') (by decide)
  have hcolon := h.lpos.dindex_none (m := ':') (by decide)
  rw [round_eq, round_eq]
  by_cases hstop : dindex p.lpos 'Z' = none ∨ dindex p.lpos ':' = none
  · rw [if_pos hstop, if_pos (hZ.or hcolon |>.mp hstop)]
    exact ⟨rfl, h⟩
  · rw [if_neg hstop, if_neg (mt (hZ.or hcolon).mpr hstop)]
    rw [not_or] at hstop
    have agree := agree hstop.1 hstop.2
    by_cases hhead : p.lpos.head? = some ':'
    · rw [if_pos hhead] at agree
      rw [if_pos hhead, if_pos (h.head ▸ hhead)]
      exact line_like h agree
    · have hhead' : ¬ p'.lpos.head? = some ':' := h.head ▸ hhead
      rw [if_neg hhead] at agree
      rw [if_neg hhead, if_neg hhead', ← h.bytes]
      by_cases hbytes : p.bytes = []
      · rw [if_neg (not_not.mpr hbytes), if_neg (not_not.mpr hbytes)]
        exact line_like h.readAddress (agree hbytes)
      · rw [if_pos hbytes, if_pos hbytes]
        exact ⟨rfl, h⟩

theorem loop_like {fuel : ℕ} (h : p.Like p') (agree : LoopAgrees fuel p p') :
    (loop fuel p).Like (loop fuel p') := by
  induction fuel generalizing p p' with
  | zero => exact h
  | succ fuel ih =>
    obtain ⟨hround, hrest⟩ := agree
    obtain ⟨hmore, hlike⟩ := round_like h hround
    rw [loop, loop]
    simp only [← hmore]
    split
    · next hm => exact ih hlike (hrest hm)
    · exact hlike

end Progress

theorem marked_same {w w' : List Char} (h : SameText w w') : SameText (marked w) (marked w') :=
  SameText.cString (List.rel_append h.upToNewline (.cons (.inl rfl) .nil))

theorem finish_like {w w' : List Char} {addr : BitVec 32} (h : SameText w w')
    (agree : CallAgrees w w' addr) :
    (finish w addr).Like (finish w' addr) ∧ advance w addr = advance w' addr := by
  have hmarked := marked_same h
  have hlike : (finish w addr).Like (finish w' addr) := by
    unfold finish
    rw [← hmarked.length_eq]
    exact Progress.loop_like ⟨rfl, rfl, hmarked⟩ agree
  refine ⟨hlike, ?_⟩
  unfold advance
  rw [hmarked.length_eq, hlike.lpos.length_eq]

/-! ### The sequence of calls -/

/-- What the calls return, up to the first that returns 0 or goes wrong. -/
def calls (T : Traps σ) (fd : ℤ) (max : ℕ) : ℕ → FsState σ → BitVec 32 → List (Except Halt Chunk)
  | 0, _, _ => []
  | n + 1, s, addr =>
    match processGetFromFile T s fd addr max with
    | .error e => [.error e]
    | .ok (c, s') => .ok c :: if c.nbytes = 0 then [] else calls T fd max n s' c.addr

/-- The characters that the next call reads. -/
def nextWindow (T : Traps σ) (s : FsState σ) (fd : ℤ) (max : ℕ) : List Char :=
  (fsRead T (fsSeek T s fd 0 fsSeekCur).2 fd (min (max * 2) 200 : ℕ)).1.2

/-- In each call of the two sequences, `isxdigit` says the same of each pair that is tested. -/
def CallsAgree (T : Traps σ) (T' : Traps σ') (fd fd' : ℤ) (max : ℕ) :
    ℕ → FsState σ → FsState σ' → BitVec 32 → Prop
  | 0, _, _, _ => True
  | n + 1, s, s', addr =>
    CallAgrees (nextWindow T s fd max) (nextWindow T' s' fd' max) addr ∧
      ∀ c c' s₁ s₁', processGetFromFile T s fd addr max = .ok (c, s₁) →
        processGetFromFile T' s' fd' addr max = .ok (c', s₁') →
          CallsAgree T T' fd fd' max n s₁ s₁' c.addr

theorem callsAgree_ok {n max : ℕ} {s s₁ : FsState σ} {s' s₁' : FsState σ'} {addr : BitVec 32}
    {r r' : Chunk} (h : processGetFromFile T s fd addr max = .ok (r, s₁))
    (h' : processGetFromFile T' s' fd' addr max = .ok (r', s₁')) :
    CallsAgree T T' fd fd' max (n + 1) s s' addr ↔
      CallAgrees (nextWindow T s fd max) (nextWindow T' s' fd' max) addr ∧
        CallsAgree T T' fd fd' max n s₁ s₁' r.addr := by
  refine and_congr_right fun _ => ⟨fun hrest => hrest r r' s₁ s₁' h h', ?_⟩
  intro hrest r₂ r₂' s₂ s₂' e e'
  obtain ⟨rfl, rfl⟩ := Prod.mk.inj (Except.ok.inj (h.symm.trans e))
  obtain ⟨rfl, rfl⟩ := Prod.mk.inj (Except.ok.inj (h'.symm.trans e'))
  exact hrest

instance decidableCallsAgree (T : Traps σ) (T' : Traps σ') (fd fd' : ℤ) (max : ℕ) :
    ∀ n s s' addr, Decidable (CallsAgree T T' fd fd' max n s s' addr)
  | 0, _, _, _ => isTrue trivial
  | n + 1, s, s', addr =>
    match h : processGetFromFile T s fd addr max, h' : processGetFromFile T' s' fd' addr max with
    | .ok (c, s₁), .ok (c', s₁') =>
      have := decidableCallsAgree T T' fd fd' max n s₁ s₁' c.addr
      decidable_of_iff _ (callsAgree_ok h h').symm
    | .error e, _ => decidable_of_iff
        (CallAgrees (nextWindow T s fd max) (nextWindow T' s' fd' max) addr)
        (by simp [CallsAgree, h])
    | _, .error e => decidable_of_iff
        (CallAgrees (nextWindow T s fd max) (nextWindow T' s' fd' max) addr)
        (by simp [CallsAgree, h'])

section Calls

variable {s : FsState σ} {s' : FsState σ'} {k k' max : ℕ} {addr : BitVec 32}

/-- Two calls go wrong alike, or return the same chunk and move on alike. -/
theorem call_alike (o : Ordinary T u file At) (o' : Ordinary T' u' file' At')
    (h : Reading At u fd s k) (h' : Reading At' u' fd' s' k')
    (same : SameText (file.drop k) (file'.drop k'))
    (agree : CallAgrees (nextWindow T s fd max) (nextWindow T' s' fd' max) addr) :
    (∃ e, processGetFromFile T s fd addr max = .error e ∧
      processGetFromFile T' s' fd' addr max = .error e) ∨
    ∃ c s₁ s₁' j, processGetFromFile T s fd addr max = .ok (c, s₁) ∧
      processGetFromFile T' s' fd' addr max = .ok (c, s₁') ∧
      Reading At u fd s₁ (k + j) ∧ Reading At' u' fd' s₁' (k' + j) := by
  obtain ⟨r₁, r₂, e₁, e₂, h₂⟩ := window_read o h (min (max * 2) 200)
  obtain ⟨r₁', r₂', e₁', e₂', h₂'⟩ := window_read o' h' (min (max * 2) 200)
  have hw : nextWindow T s fd max = window file k max := by
    rw [nextWindow, e₁, e₂]
    rfl
  have hw' : nextWindow T' s' fd' max = window file' k' max := by
    rw [nextWindow, e₁', e₂']
    rfl
  rw [hw, hw'] at agree
  have samew : SameText (window file k max) (window file' k' max) :=
    List.forall₂_take (min (max * 2) 200) same
  by_cases hempty : window file k max = []
  · have hempty' : window file' k' max = [] := by
      rw [hempty] at samew
      exact List.forall₂_nil_left_iff.mp samew
    refine .inr ⟨⟨0, [], addr⟩, r₂, r₂', 0, processGetFromFile_empty e₁ e₂ hempty,
      processGetFromFile_empty e₁' e₂' hempty', ?_, ?_⟩
    · rw [show (file.drop k).take (min (max * 2) 200) = [] from hempty] at h₂
      exact h₂
    · rw [show (file'.drop k').take (min (max * 2) 200) = [] from hempty'] at h₂'
      exact h₂'
  · have hempty' : window file' k' max ≠ [] := by
      intro hnil
      rw [hnil] at samew
      exact hempty (List.forall₂_nil_right_iff.mp samew)
    have hnewline : '\n' ∈ window file k max ↔ '\n' ∈ window file' k' max := by
      have hfind := samew.dindex_none (m := '\n') (by decide)
      rwa [dindex_eq_none, dindex_eq_none, not_iff_not] at hfind
    by_cases hn : '\n' ∈ window file k max
    · obtain ⟨hlike, hadvance⟩ := finish_like samew agree
      obtain ⟨s₁, hc, h₁⟩ := call_newline o h addr hn
      obtain ⟨s₁', hc', h₁'⟩ := call_newline o' h' addr (hnewline.mp hn)
      rw [← hlike.bytes, ← hlike.addr] at hc'
      rw [← hadvance] at h₁'
      exact .inr ⟨_, s₁, s₁', _, hc, hc', h₁, h₁'⟩
    · exact .inl ⟨_, processGetFromFile_wild e₁ e₂ hempty hn,
        processGetFromFile_wild e₁' e₂' hempty' (mt hnewline.mpr hn)⟩

/-- As long as `isxdigit` says the same in both, the calls deliver the same chunks. -/
theorem calls_alike (o : Ordinary T u file At) (o' : Ordinary T' u' file' At')
    (h : Reading At u fd s k) (h' : Reading At' u' fd' s' k')
    (same : SameText (file.drop k) (file'.drop k')) (n : ℕ)
    (agree : CallsAgree T T' fd fd' max n s s' addr) :
    calls T fd max n s addr = calls T' fd' max n s' addr := by
  induction n generalizing s s' k k' addr with
  | zero => rfl
  | succ n ih =>
    obtain ⟨hcall, hrest⟩ := agree
    rw [calls, calls]
    rcases call_alike o o' h h' same hcall with ⟨e, he, he'⟩ | ⟨c, s₁, s₁', j, hc, hc', h₁, h₁'⟩
    · rw [he, he']
    · rw [hc, hc']
      simp only
      split
      · rfl
      · have same₁ : SameText (file.drop (k + j)) (file'.drop (k' + j)) := by
          rw [← List.drop_drop, ← List.drop_drop]
          exact List.forall₂_drop j same
        rw [ih h₁ h₁' same₁ (hrest c c s₁ s₁' hc hc')]

end Calls

/-- Two lines in which only an `A` is a capital letter: three calls, the last of which returns
0. -/
theorem calls_alike_small :
    calls (textTraps "0:0A\n4:1A0b\n".toList) 1 4 3 allOpened 0 =
        calls (textTraps "0:0a\n4:1a0b\n".toList) 1 4 3 allOpened 0 ∧
      (calls (textTraps "0:0A\n4:1A0b\n".toList) 1 4 3 allOpened 0).map
        (fun r => r.toOption.map Chunk.nbytes) = [some 1, some 2, some 0] := by
  have same : SameText "0:0A\n4:1A0b\n".toList "0:0a\n4:1a0b\n".toList := by
    have hA : SameLetter 'A' 'a' := .inr ⟨0, .inr ⟨rfl, rfl⟩⟩
    simpa [SameText, SameLetter] using hA
  refine ⟨calls_alike (textTraps_ordinary _) (textTraps_ordinary _) allOpened_reading
    allOpened_reading same 3 ?_, ?_⟩
  · decide
  · decide

/-- A capital `B` in the data. -/
theorem calls_differ : ¬ ∀ (T T' : Traps ℕ) (u u' fd fd' : ℤ) (file file' : List Char)
    (At At' : ℕ → ℕ → Prop) (s s' : FsState ℕ) (k k' max n : ℕ) (addr : BitVec 32),
    Ordinary T u file At → Ordinary T' u' file' At' → Reading At u fd s k →
      Reading At' u' fd' s' k' → SameText (file.drop k) (file'.drop k') →
        calls T fd max n s addr = calls T' fd' max n s' addr := by
  intro h
  have hB : SameLetter 'B' 'b' := .inr ⟨1, .inr ⟨rfl, rfl⟩⟩
  have same : SameText ['0', ':', '0', 'B', '\n'] ['0', ':', '0', 'b', '\n'] :=
    .cons (.inl rfl) (.cons (.inl rfl) (.cons (.inl rfl) (.cons hB (.cons (.inl rfl) .nil))))
  have e := h _ _ 3 3 1 1 _ _ _ _ _ _ 0 0 100 1 0 (textTraps_ordinary _) (textTraps_ordinary _)
    allOpened_reading allOpened_reading same
  have hbytes := congrArg (List.map fun r => r.toOption.map fun c : Chunk => c.buf.length) e
  revert hbytes
  decide

end DlxOs.Files
