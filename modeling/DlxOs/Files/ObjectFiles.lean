import DlxOs.Files.Loader
import Mathlib.Data.BitVec
import Mathlib.Data.List.TakeWhile
import Mathlib.Data.Nat.Digits.Defs

/-!
# The body of an object file

The body is a list of lines, each with an address or none, and pairs of
hexadecimal digits. What it stands for is a list of addresses and bytes.
`getBytes` and the rounds of the outer loop read a line as it is meant.
-/

namespace DlxOs.Files

/-! ### Lines -/

/-- The digits 0 to 9 and a to f. -/
def hexChar (d : Fin 16) : Char := if d.val < 10 then Char.ofNat (48 + d) else Char.ofNat (87 + d)

def blank (tab : Bool) : Char := if tab then '\t' else ' '

/-- Two digits, and the blanks and tabs before them. -/
structure Pair where
  blanks : List Bool
  high : Fin 16
  low : Fin 16

namespace Pair

def text (p : Pair) : List Char := p.blanks.map blank ++ [hexChar p.high, hexChar p.low]

def byte (p : Pair) : BitVec 8 := BitVec.ofNat 8 (p.high * 16 + p.low)

end Pair

/-- A line with at least one pair; without digits of an address, it continues the line before. -/
structure Line where
  address : List (Fin 16)
  pairs : List Pair
  nonempty : pairs ≠ []
  trailing : List Bool

namespace Line

def text (l : Line) : List Char :=
  l.address.map hexChar ++ ':' :: (l.pairs.flatMap Pair.text ++ (l.trailing.map blank ++ ['\n']))

def bytes (l : Line) : List (BitVec 8) := l.pairs.map Pair.byte

/-- Where the bytes of the line go, if the previous byte was before `a`. -/
def start (l : Line) (a : BitVec 32) : BitVec 32 :=
  if l.address = [] then a
  else BitVec.ofNat 32 (Nat.ofDigits 16 (l.address.reverse.map Fin.val))

/-- The address after the last byte of the line. -/
def next (l : Line) (a : BitVec 32) : BitVec 32 := l.start a + BitVec.ofNat 32 l.bytes.length

end Line

/-- The characters of the lines. -/
def text (lines : List Line) : List Char := lines.flatMap Line.text

/-- Bytes at consecutive addresses. -/
def place (a : BitVec 32) : List (BitVec 8) → List (BitVec 32 × BitVec 8)
  | [] => []
  | b :: bytes => (a, b) :: place (a + 1) bytes

/-- The bytes of the lines and their addresses, where the first line continues at `a`. -/
def meaning (a : BitVec 32) : List Line → List (BitVec 32 × BitVec 8)
  | [] => []
  | l :: lines => place (l.start a) l.bytes ++ meaning (l.next a) lines

/-! ### Characters -/

section Characters

variable (d e : Fin 16) (tab : Bool)

theorem isxdigit_hexChar : isxdigit (hexChar d) = true := by
  revert d
  decide

theorem getxvalue_hexChar : getxvalue (hexChar d) = d := by
  revert d
  decide

theorem curdigit_hexChar : curdigit (hexChar d) = d := by
  revert d
  decide

theorem hexChar_ne : hexChar d ≠ ' ' ∧ hexChar d ≠ '\t' ∧ hexChar d ≠ '\n' ∧ hexChar d ≠ ':' ∧
    hexChar d ≠ '-' ∧ hexChar d ≠ 'Z' ∧ hexChar d ≠ '\x00' := by
  revert d
  decide

theorem blank_ne : blank tab ≠ '\n' ∧ blank tab ≠ 'Z' ∧ blank tab ≠ '\x00' := by
  revert tab
  decide

end Characters

/-! ### The inner loop -/

variable {l : Line} {p : Pair} {rest : List Char} {lines : List Line}

theorem getBytes_blank (tab : Bool) : getBytes (blank tab :: rest) = getBytes rest := by
  cases tab with
  | false => cases rest <;> rfl
  | true => cases rest <;> rfl

theorem getBytes_blanks (blanks : List Bool) :
    getBytes (blanks.map blank ++ rest) = getBytes rest := by
  induction blanks with
  | nil => rfl
  | cons tab blanks ih => rw [List.map_cons, List.cons_append, getBytes_blank, ih]

theorem getBytes_newline : getBytes ('\n' :: rest) = (rest, []) := by
  cases rest with
  | nil => rfl
  | cons d rest => rfl

theorem getBytes_pair (p : Pair) : getBytes (p.text ++ rest) =
    ((getBytes rest).1, p.byte :: (getBytes rest).2) := by
  obtain ⟨hs, ht, hn, -⟩ := hexChar_ne p.high
  rw [Pair.text, List.append_assoc, getBytes_blanks]
  simp [getBytes, hs, ht, hn, isxdigit_hexChar, getxvalue_hexChar, Pair.byte]

/-- The inner loop reads the pairs of a line and ends after its newline. -/
theorem getBytes_line (pairs : List Pair) (trailing : List Bool) :
    getBytes (pairs.flatMap Pair.text ++ (trailing.map blank ++ '\n' :: rest)) =
      (rest, pairs.map Pair.byte) := by
  induction pairs with
  | nil =>
      rw [List.flatMap_nil, List.nil_append, getBytes_blanks, getBytes_newline]
      rfl
  | cons p pairs ih =>
      rw [List.flatMap_cons, List.append_assoc, getBytes_pair, ih]
      rfl

/-! ### Addresses -/

/-- The digits of an address, with the digits before it worth `v`. -/
theorem digits_hexChars (ds : List (Fin 16)) (v : ℕ) :
    digits 16 (BitVec.ofNat 32 v) (ds.map hexChar ++ ':' :: rest) =
      (BitVec.ofNat 32 (ds.foldl (fun v d => v * 16 + d.val) v), ':' :: rest) := by
  induction ds generalizing v with
  | nil =>
      have hcolon : ¬ curdigit ':' < 16 := by decide
      simp [digits, hcolon]
  | cons d ds ih =>
      have hd : curdigit (hexChar d) < 16 := by
        rw [curdigit_hexChar]
        exact d.isLt
      rw [List.map_cons, List.cons_append, digits, if_pos hd, curdigit_hexChar,
        List.foldl_cons, ← ih (v * 16 + d.val), BitVec.ofNat_add, BitVec.ofNat_mul]

theorem foldl_digits (ds : List (Fin 16)) :
    ds.foldl (fun v d => v * 16 + d.val) 0 = Nat.ofDigits 16 (ds.reverse.map Fin.val) := by
  rw [List.map_reverse, Nat.ofDigits_eq_foldr, List.foldr_reverse, List.foldl_map]
  simp [add_comm, mul_comm]

/-- A number without a sign and without blanks before it. -/
theorem dstrtol_digits {c : Char} {base : ℕ} (hb : base ≠ 0) (hbase : base ≤ 16)
    (hc : isspace c = false) (hm : c ≠ '-') (s : List Char) :
    dstrtol (c :: s) base = digits base 0 (c :: s) := by
  unfold dstrtol
  rw [List.dropWhile_cons_of_neg (by simp [hc])]
  simp only [ne_eq, hb, not_false_eq_true, if_true, gt_iff_lt, not_lt.mpr hbase, if_false]
  split
  · next h => exact absurd (List.cons.inj h).1 hm
  · simp only [Bool.false_eq_true, if_false]

/-- The address of a line. -/
theorem dstrtol_address (ds : List (Fin 16)) (hds : ds ≠ []) :
    dstrtol (ds.map hexChar ++ ':' :: rest) 16 =
      (BitVec.ofNat 32 (Nat.ofDigits 16 (ds.reverse.map Fin.val)), ':' :: rest) := by
  rw [← foldl_digits, ← digits_hexChars]
  cases ds with
  | nil => exact absurd rfl hds
  | cons d ds =>
      obtain ⟨hs, ht, hn, -, hm, -⟩ := hexChar_ne d
      exact dstrtol_digits (by decide) le_rfl (by simp [isspace, hs, ht, hn]) hm _

/-! ### The outer loop -/

theorem dindex_eq_none {l : List Char} {c : Char} : dindex l c = none ↔ c ∉ l := by
  induction l with
  | nil => simp [dindex]
  | cons a l ih =>
      unfold dindex
      rcases eq_or_ne a c with rfl | hne
      · simp
      · rw [if_neg hne, ih, List.mem_cons, not_or]
        exact (and_iff_right hne.symm).symm

/-- The part of a line after the address. -/
def Line.tail (l : Line) : List Char :=
  ':' :: (l.pairs.flatMap Pair.text ++ (l.trailing.map blank ++ ['\n']))

theorem line_spec (l : Line) (a : BitVec 32) (bs : List (BitVec 8)) (rest : List Char) :
    Progress.line ⟨l.tail ++ rest, a, bs⟩ =
      (true, ⟨rest, a + BitVec.ofNat 32 l.bytes.length, bs ++ l.bytes⟩) := by
  unfold Progress.line Line.tail
  simp only [List.cons_append, List.append_assoc, List.nil_append]
  rw [getBytes_line]
  rfl

theorem Line.text_of_nil (h : l.address = []) : l.text = l.tail := by
  rw [Line.text, h]
  rfl

/-- A line with an address does not start with a colon. -/
theorem Line.head_text (h : l.address ≠ []) : (l.text ++ rest).head? ≠ some ':' := by
  unfold Line.text
  cases hl : l.address with
  | nil => exact absurd hl h
  | cons d ds =>
      obtain ⟨-, -, -, hc, -⟩ := hexChar_ne d
      simpa using hc

/-- While there are lines, the loop looks at them. -/
theorem round_looks {a : BitVec 32} {bs : List (BitVec 8)} (hz : 'Z' ∈ rest) :
    Progress.round ⟨l.text ++ rest, a, bs⟩ =
      if (l.text ++ rest).head? = some ':' then Progress.line ⟨l.text ++ rest, a, bs⟩
      else if bs ≠ [] then (false, ⟨l.text ++ rest, a, bs⟩)
      else Progress.line ⟨(dstrtol (l.text ++ rest) 16).2, (dstrtol (l.text ++ rest) 16).1, bs⟩ := by
  have hZ : dindex (l.text ++ rest) 'Z' ≠ none := by
    rw [Ne, dindex_eq_none, not_not]
    exact List.mem_append_right _ hz
  have hcolon : dindex (l.text ++ rest) ':' ≠ none := by
    rw [Ne, dindex_eq_none, not_not]
    exact List.mem_append_left _ (by simp [Line.text])
  unfold Progress.round
  rw [if_neg (not_or.mpr ⟨hZ, hcolon⟩)]

/-- A round reads a line, if it has no address or no byte has been stored before. -/
theorem round_line {a : BitVec 32} {bs : List (BitVec 8)} (h : l.address = [] ∨ bs = [])
    (hz : 'Z' ∈ rest) :
    Progress.round ⟨l.text ++ rest, a, bs⟩ = (true, ⟨rest, l.next a, bs ++ l.bytes⟩) := by
  rw [round_looks hz, Line.next, Line.start]
  by_cases ha : l.address = []
  · rw [if_pos ha, Line.text_of_nil ha, if_pos (by simp [Line.tail]), line_spec]
  · obtain rfl := h.resolve_left ha
    rw [if_neg ha, if_neg (Line.head_text ha), if_neg (not_not.mpr rfl)]
    have hl : l.text ++ rest = l.address.map hexChar ++ ':' ::
        (l.pairs.flatMap Pair.text ++ (l.trailing.map blank ++ ['\n']) ++ rest) := by
      simp [Line.text]
    rw [hl, dstrtol_address _ ha]
    exact line_spec l _ [] rest

/-- The loop stops before a line with an address, when a byte has been stored. -/
theorem round_address {a : BitVec 32} {bs : List (BitVec 8)} (h : l.address ≠ []) (hbs : bs ≠ [])
    (hz : 'Z' ∈ rest) :
    Progress.round ⟨l.text ++ rest, a, bs⟩ = (false, ⟨l.text ++ rest, a, bs⟩) := by
  rw [round_looks hz, if_neg (Line.head_text h), if_pos hbs]

/-- The loop stops at the mark. -/
theorem round_mark {a : BitVec 32} {bs : List (BitVec 8)} :
    Progress.round ⟨['Z'], a, bs⟩ = (false, ⟨['Z'], a, bs⟩) := by
  have hcolon : dindex ['Z'] ':' = none := by decide
  unfold Progress.round
  rw [if_pos (.inr hcolon)]

theorem bytes_ne_nil (l : Line) : l.bytes ≠ [] := by
  unfold Line.bytes
  exact fun h => l.nonempty (List.map_eq_nil_iff.mp h)

theorem loop_succ {fuel : ℕ} {p : Progress} :
    Progress.loop (fuel + 1) p = if p.round.1 then Progress.loop fuel p.round.2 else p.round.2 :=
  rfl

/-- After the first line, the loop reads the lines without an address. -/
theorem loop_continues {fuel : ℕ} {a : BitVec 32} {bs : List (BitVec 8)} (hbs : bs ≠ [])
    (hfuel : lines.length ≤ fuel) :
    ∃ taken left, lines = taken ++ left ∧ (∀ l ∈ taken, l.address = []) ∧
      Progress.loop fuel ⟨text lines ++ ['Z'], a, bs⟩ =
        ⟨text left ++ ['Z'], a + BitVec.ofNat 32 (taken.flatMap Line.bytes).length,
          bs ++ taken.flatMap Line.bytes⟩ := by
  induction lines generalizing fuel a bs with
  | nil =>
      refine ⟨[], [], rfl, by simp, ?_⟩
      cases fuel with
      | zero => simp [Progress.loop]
      | succ fuel =>
          rw [loop_succ, show text [] ++ ['Z'] = ['Z'] from rfl, round_mark]
          simp
  | cons l lines ih =>
      obtain ⟨fuel, rfl⟩ := Nat.exists_eq_add_of_le' ((Nat.succ_pos _).trans_le hfuel)
      have hz : 'Z' ∈ text lines ++ ['Z'] := by simp
      have htext : text (l :: lines) ++ ['Z'] = l.text ++ (text lines ++ ['Z']) := by
        simp [text]
      rw [htext, loop_succ]
      by_cases ha : l.address = []
      · have hne : bs ++ l.bytes ≠ [] := List.append_ne_nil_of_left_ne_nil hbs _
        obtain ⟨taken, left, rfl, htaken, e⟩ := ih (a := l.next a) hne (Nat.le_of_succ_le_succ hfuel)
        refine ⟨l :: taken, left, rfl, ?_, ?_⟩
        · rintro k (_ | ⟨_, hk⟩)
          · exact ha
          · exact htaken k hk
        · rw [round_line (.inl ha) hz, if_pos rfl, e, List.flatMap_cons, List.append_assoc,
            List.length_append, BitVec.ofNat_add, ← BitVec.add_assoc, Line.next, Line.start,
            if_pos ha]
      · refine ⟨[], l :: lines, rfl, by simp, ?_⟩
        rw [round_address ha hbs hz, if_neg Bool.false_ne_true, htext]
        simp

/-- The loop reads the first line and those without an address that follow. -/
theorem loop_reads {fuel : ℕ} {a : BitVec 32} (hfuel : lines.length < fuel) :
    ∃ taken left, lines = taken ++ left ∧ (∀ l ∈ taken, l.address = []) ∧
      Progress.loop fuel ⟨text (l :: lines) ++ ['Z'], a, []⟩ =
        ⟨text left ++ ['Z'], l.start a + BitVec.ofNat 32 ((l :: taken).flatMap Line.bytes).length,
          (l :: taken).flatMap Line.bytes⟩ := by
  obtain ⟨fuel, rfl⟩ := Nat.exists_eq_add_of_le' (show 1 ≤ fuel by omega)
  have hz : 'Z' ∈ text lines ++ ['Z'] := by simp
  have htext : text (l :: lines) ++ ['Z'] = l.text ++ (text lines ++ ['Z']) := by
    simp [text]
  obtain ⟨taken, left, hlines, htaken, e⟩ := loop_continues (a := l.next a) (bytes_ne_nil l)
    (show lines.length ≤ fuel by omega)
  refine ⟨taken, left, hlines, htaken, ?_⟩
  rw [htext, loop_succ, round_line (.inr rfl) hz, if_pos rfl, List.nil_append, e,
    List.flatMap_cons, List.length_append, BitVec.ofNat_add, ← BitVec.add_assoc, Line.next]

/-! ### Windows -/

/-- A line without its newline. -/
def Line.chars (l : Line) : List Char :=
  l.address.map hexChar ++ ':' :: (l.pairs.flatMap Pair.text ++ l.trailing.map blank)

theorem Line.text_eq (l : Line) : l.text = l.chars ++ ['\n'] := by simp [Line.text, Line.chars]

theorem Line.chars_ne {c : Char} (h : c ∈ l.chars) : c ≠ '\n' ∧ c ≠ '\x00' := by
  have hblank : ∀ blanks : List Bool, c ∈ blanks.map blank → c ≠ '\n' ∧ c ≠ '\x00' := by
    intro blanks hc
    obtain ⟨tab, -, rfl⟩ := List.mem_map.mp hc
    exact ⟨(blank_ne tab).1, (blank_ne tab).2.2⟩
  have hhex : ∀ d, c = hexChar d → c ≠ '\n' ∧ c ≠ '\x00' := by
    rintro d rfl
    obtain ⟨-, -, hn, -, -, -, h0⟩ := hexChar_ne d
    exact ⟨hn, h0⟩
  rcases List.mem_append.mp h with h | h
  · obtain ⟨d, -, rfl⟩ := List.mem_map.mp h
    exact hhex d rfl
  · rcases List.mem_cons.mp h with rfl | h
    · decide
    · rcases List.mem_append.mp h with h | h
      · obtain ⟨p, -, hp⟩ := List.mem_flatMap.mp h
        rcases List.mem_append.mp hp with hp | hp
        · exact hblank _ hp
        · rcases List.mem_cons.mp hp with hp | hp
          · exact hhex _ hp
          · exact hhex _ (List.mem_singleton.mp hp)
      · exact hblank _ h

/-- The lines have no null character. -/
theorem cString_text : cString (text lines ++ ['Z']) = text lines ++ ['Z'] := by
  refine List.takeWhile_eq_self_iff.mpr fun c hc => decide_eq_true ?_
  rcases List.mem_append.mp hc with hc | hc
  · obtain ⟨l, -, hl⟩ := List.mem_flatMap.mp hc
    rw [Line.text_eq] at hl
    rcases List.mem_append.mp hl with hl | hl
    · exact (Line.chars_ne hl).2
    · rw [List.mem_singleton.mp hl]
      decide
  · rw [List.mem_singleton.mp hc]
    decide

/-- A window is made of whole lines and the start of a line. -/
theorem take_text (lines : List Line) (n : ℕ) : ∃ whole left part, lines = whole ++ left ∧
    (text lines).take n = text whole ++ part ∧ '\n' ∉ part ∧
    ((∀ l ∈ lines.head?, l.text.length ≤ n) → lines ≠ [] → whole ≠ []) := by
  induction lines generalizing n with
  | nil => exact ⟨[], [], [], rfl, by simp [text], by simp, fun _ h => absurd rfl h⟩
  | cons l lines ih =>
      have htext : text (l :: lines) = l.text ++ text lines := by simp [text]
      by_cases hn : l.text.length ≤ n
      · obtain ⟨whole, left, part, rfl, e, hpart, -⟩ := ih (n - l.text.length)
        refine ⟨l :: whole, left, part, rfl, ?_, hpart, fun _ _ => List.cons_ne_nil l whole⟩
        rw [htext, List.take_append, List.take_of_length_le hn, e, ← List.append_assoc]
        simp [text]
      · refine ⟨[], l :: lines, l.text.take n, rfl, ?_, fun hm => ?_, fun h => ?_⟩
        · rw [htext, List.take_append_of_le_length (by omega)]
          rfl
        · have hlen : n ≤ l.chars.length := by
            rw [Line.text_eq, List.length_append, List.length_singleton] at hn
            omega
          rw [Line.text_eq, List.take_append_of_le_length hlen] at hm
          exact (Line.chars_ne (List.mem_of_mem_take hm)).1 rfl
        · exact absurd (h l rfl) hn

/-- What is cut off a window is the start of a line. -/
theorem upToNewline_text {part : List Char} (hne : lines ≠ []) (hpart : '\n' ∉ part) :
    upToNewline (text lines ++ part) = text lines := by
  obtain ⟨front, l, rfl⟩ := List.eq_nil_or_concat lines |>.resolve_left hne
  have hend : text (front.concat l) = (text front ++ l.chars) ++ ['\n'] := by
    simp [text, Line.text_eq]
  rw [hend, upToNewline, List.reverse_append, List.dropWhile_append_of_pos]
  · simp
  · intro c hc
    refine decide_eq_true fun e => hpart ?_
    rw [← e]
    exact List.mem_reverse.mp hc

/-- Each byte takes two characters. -/
theorem length_bytes_le (lines : List Line) :
    2 * (lines.flatMap Line.bytes).length ≤ (text lines).length := by
  induction lines with
  | nil => rfl
  | cons l lines ih =>
      have hpairs : ∀ pairs : List Pair, 2 * pairs.length ≤ (pairs.flatMap Pair.text).length := by
        intro pairs
        induction pairs with
        | nil => rfl
        | cons p pairs ihp =>
            rw [List.flatMap_cons, List.length_append, List.length_cons, Pair.text]
            simp only [List.length_append, List.length_cons, List.length_nil]
            omega
      have hl : 2 * l.bytes.length ≤ l.text.length := by
        have := hpairs l.pairs
        simp only [Line.bytes, Line.text, List.length_append, List.length_cons, List.length_map]
        omega
      have htext : text (l :: lines) = l.text ++ text lines := by simp [text]
      rw [htext, List.flatMap_cons, List.length_append, List.length_append]
      omega

theorem length_le_text (lines : List Line) : lines.length ≤ (text lines).length := by
  induction lines with
  | nil => rfl
  | cons l lines ih =>
      have htext : text (l :: lines) = l.text ++ text lines := by simp [text]
      rw [htext, Line.text_eq, List.length_append, List.length_append, List.length_cons]
      simp only [List.length_singleton]
      omega

/-! ### Bytes at their addresses -/

theorem place_append (a : BitVec 32) (x y : List (BitVec 8)) :
    place a (x ++ y) = place a x ++ place (a + BitVec.ofNat 32 x.length) y := by
  induction x generalizing a with
  | nil => simp [place]
  | cons b x ih =>
      rw [List.cons_append, place, ih, place, List.cons_append, List.length_cons,
        BitVec.ofNat_add, BitVec.add_comm (BitVec.ofNat 32 x.length), BitVec.add_assoc]
      rfl

/-- The bytes of lines without an address continue those before. -/
theorem meaning_continues {taken left : List Line} (h : ∀ l ∈ taken, l.address = [])
    (a : BitVec 32) : meaning a (taken ++ left) = place a (taken.flatMap Line.bytes) ++
      meaning (a + BitVec.ofNat 32 (taken.flatMap Line.bytes).length) left := by
  induction taken generalizing a with
  | nil => simp [place]
  | cons l taken ih =>
      have hl : l.start a = a := if_pos (h l (List.mem_cons_self ..))
      rw [List.cons_append, meaning, ih (fun k hk => h k (List.mem_cons_of_mem l hk)), Line.next, hl,
        List.flatMap_cons, place_append, List.append_assoc, List.length_append, BitVec.ofNat_add,
        BitVec.add_assoc]

end DlxOs.Files
