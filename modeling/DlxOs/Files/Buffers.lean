import DlxOs.Files.Loading

/-!
# Loading, access by access

The routines of `Files.Loader` once more, over the bytes of a buffer. A pointer
is the list of the bytes from it to the end of the buffer, null characters and
all, and an access at its end is one outside the buffer.

## Main results

On a string that ends inside its buffer, each routine stays inside and computes
what it computes in `Files.Loader`.
-/

namespace DlxOs.Files

open Kernel (Halt ok_bind)

variable {σ : Type}

/-- The text after a sign. -/
def unsigned : List Char → List Char
  | '-' :: s => s
  | c => c

/-- The value that was read after the sign of `c`. -/
def signed : List Char → BitVec 32 × List Char → BitVec 32 × List Char
  | '-' :: _, (v, s) => (-v, s)
  | _, r => r

theorem unsigned_of_ne {c : Char} (h : c ≠ '-') (s : List Char) : unsigned (c :: s) = c :: s := by
  unfold unsigned
  split
  · next e => exact absurd (List.cons.inj e).1 h
  · rfl

theorem signed_of_ne {c : Char} (h : c ≠ '-') (s : List Char) (r : BitVec 32 × List Char) :
    signed (c :: s) r = r := by
  unfold signed
  split
  · next e => exact absurd (List.cons.inj e).1 h
  · rfl

theorem signed_snd (c : List Char) (r : BitVec 32 × List Char) : (signed c r).2 = r.2 := by
  unfold signed
  split <;> rfl

theorem dstrtol_hex (l : List Char) : dstrtol l 16 =
    signed (l.dropWhile isspace) (digits 16 0 (unsigned (l.dropWhile isspace))) := by
  unfold dstrtol
  generalize l.dropWhile isspace = c
  cases c with
  | nil => rfl
  | cons a c =>
    by_cases ha : a = '-'
    · subst ha
      rfl
    · rw [signed_of_ne ha, unsigned_of_ne ha]
      simp only [ne_eq, OfNat.ofNat_ne_zero, not_false_eq_true, if_true, gt_iff_lt,
        lt_self_iff_false, if_false]
      split
      · next e => exact absurd (List.cons.inj e).1 ha
      · rfl

namespace Raw

/-! ### Strings and numbers -/

def load : List Char → Except Halt Char
  | [] => .error .wildAccess
  | c :: _ => .ok c

def store (localbuf : List Char) (i : ℕ) (c : Char) : Except Halt (List Char) :=
  if i < localbuf.length then .ok (localbuf.set i c) else .error .wildAccess

/-- The second string is a constant, and is given by its characters. -/
def dstrncmp : List Char → List Char → ℕ → Except Halt ℤ
  | _, _, 0 => .ok 0
  | _, [], _ + 1 => .ok 0
  | [], _ :: _, _ + 1 => .error .wildAccess
  | a :: s₁, b :: s₂, n + 1 => if a = b then dstrncmp s₁ s₂ n else .ok (if a < b then -1 else 1)

def dstrstr : List Char → List Char → Except Halt (Option (List Char))
  | [], _ => .error .wildAccess
  | c :: s, pattern =>
    if c = '\x00' then .ok none
    else do
      let order ← dstrncmp (c :: s) pattern pattern.length
      if order = 0 then .ok (some (c :: s)) else dstrstr s pattern

def dindex : List Char → Char → Except Halt (Option (List Char))
  | [], _ => .error .wildAccess
  | a :: s, c =>
    if a = '\x00' then .ok none else if a = c then .ok (some (a :: s)) else dindex s c

/-- The loop of `dstrtol` over blanks. -/
def skip : List Char → Except Halt (List Char)
  | [] => .error .wildAccess
  | c :: s => if isspace c then skip s else .ok (c :: s)

/-- The loop of `dstrtol` over the digits. -/
def digits (base : ℕ) : BitVec 32 → List Char → Except Halt (BitVec 32 × List Char)
  | _, [] => .error .wildAccess
  | v, c :: s =>
    if curdigit c < base then
      digits base (v * BitVec.ofNat 32 base + BitVec.ofNat 32 (curdigit c)) s
    else .ok (v, c :: s)

/-- The base that the text itself names. -/
def ownBase : List Char → Except Halt (ℕ × List Char)
  | [] => .error .wildAccess
  | ['0'] => .error .wildAccess
  | '0' :: 'x' :: s => .ok (16, s)
  | '0' :: 'X' :: s => .ok (16, s)
  | '0' :: s => .ok (8, s)
  | s => .ok (10, s)

def dstrtol (c : List Char) (base : ℕ) : Except Halt (BitVec 32 × List Char) := do
  let c ← skip c
  if (← load c) = '\x00' then .ok (0, c)
  else
    let (negative, s) := match c with
      | '-' :: s => (true, s)
      | _ => (false, c)
    let (base, s) ← if base ≠ 0 then .ok (base, s) else ownBase s
    if base > 16 then .ok (0, c)
    else
      let (v, s) ← digits base 0 s
      .ok (if negative then -v else v, s)

/-! ### The header line -/

def headerNumbers (pos : List Char) : Except Halt CodeInfo := do
  let (startAddr, pos) ← dstrtol pos 16
  let (_, pos) ← dstrtol pos 16
  let (codeStart, pos) ← dstrtol pos 16
  let (codeSize, pos) ← dstrtol pos 16
  let (dataStart, pos) ← dstrtol pos 16
  let (dataSize, _) ← dstrtol pos 16
  .ok { startAddr, codeStart, codeSize, dataStart, dataSize }

/-- The difference of `1 + dindex (buf, '\n')` and `buf`. -/
def firstLine (address : ℤ) (buf : List Char) : Except Halt ℤ := do
  match ← dindex buf '\n' with
  | some rest => .ok (1 + (buf.length - rest.length))
  | none => .ok (1 - address)

/-- What is done with the 100 bytes of `buf`: the numbers, and the offset of the first line. -/
def header (address : ℤ) (buf : List Char) : Except Halt (Option (CodeInfo × ℤ)) := do
  match ← dstrstr buf "start:".toList with
  | none => .ok none
  | some _ =>
    match ← dindex buf ':' with
    | none => .error .nullAccess
    | some pos =>
      let info ← headerNumbers (pos.drop 1)
      let line ← firstLine address buf
      .ok (some (info, line))

def processGetCodeInfo (T : Traps σ) (address : ℤ) (s : FsState σ) (file : List Char) :
    Except Halt ((ℤ × Option CodeInfo) × FsState σ) :=
  let (fd, s) := fsOpen T s file fsModeRead
  if fd < 0 then .ok ((-1, none), s)
  else
    let ((totalsize, bytes), s) := fsRead T s fd 100
    if totalsize ≠ 100 then .ok ((-1, none), (fsClose T s fd).2)
    else do
      match ← header address bytes with
      | none => .ok ((-1, none), s)
      | some (info, line) => .ok ((fd, some info), (fsSeek T s fd line fsSeekSet).2)

/-! ### The lines with data -/

/-- The loop `while (localbuf[--nbytes] != '\n')`. -/
def backUp (localbuf : List Char) : ℕ → Except Halt ℕ
  | 0 => .error .wildAccess
  | nbytes + 1 => do
    let c ← load (localbuf.drop nbytes)
    if c = '\n' then .ok nbytes else backUp localbuf nbytes

/-- The inner loop, with room for that many bytes at `pos`. -/
def getBytes : List Char → ℕ → Except Halt (List Char × List (BitVec 8))
  | [], _ => .error .wildAccess
  | [c], room =>
    if c = ' ' || c = '\t' then getBytes [] room
    else if c = '\n' then .ok ([], [])
    else if isxdigit c then .error .wildAccess
    else .ok ([c], [])
  | c :: d :: l, room =>
    if c = ' ' || c = '\t' then getBytes (d :: l) room
    else if c = '\n' then .ok (d :: l, [])
    else if isxdigit c && isxdigit d then
      if room = 0 then .error .wildAccess
      else do
        let (rest, bytes) ← getBytes l (room - 1)
        .ok (rest, BitVec.ofNat 8 (getxvalue c * 16 + getxvalue d) :: bytes)
    else .ok (c :: d :: l, [])

/-- The rest of a round of the outer loop, and whether the loop goes on. -/
def line (max : ℕ) (p : Progress) : Except Halt (Bool × Progress) := do
  if (← load p.lpos) ≠ ':' then .ok (false, p)
  else
    let (rest, bytes) ← getBytes (p.lpos.drop 1) (max - p.bytes.length)
    .ok (true, ⟨rest, p.addr + BitVec.ofNat 32 bytes.length, p.bytes ++ bytes⟩)

/-- One round of the outer loop, and whether the loop goes on. -/
def round (max : ℕ) (p : Progress) : Except Halt (Bool × Progress) := do
  if (← dindex p.lpos 'Z') = none then .ok (false, p)
  else if (← dindex p.lpos ':') = none then .ok (false, p)
  else if (← load p.lpos) = ':' then line max p
  else if p.bytes ≠ [] then .ok (false, p)
  else
    let (addr, lpos) ← dstrtol p.lpos 16
    line max { p with addr, lpos }

/-- The outer loop; more rounds than `fuel` are an error. -/
def loop (max : ℕ) : ℕ → Progress → Except Halt Progress
  | 0, _ => .error .diverged
  | fuel + 1, p => do
    let (more, p) ← round max p
    if more then loop max fuel p else .ok p

/-- The bytes of `localbuf` before the call are given. -/
def processGetFromFile (T : Traps σ) (stale : List Char) (s : FsState σ) (fd : ℤ)
    (addr : BitVec 32) (max : ℕ) : Except Halt (Chunk × FsState σ) :=
  let (seekpos, s) := fsSeek T s fd 0 fsSeekCur
  let ((nbytes, bytes), s) := fsRead T s fd (min (max * 2) 200 : ℕ)
  if nbytes ≤ 0 then .ok (⟨0, [], addr⟩, s)
  else do
    let localbuf := bytes ++ stale.drop bytes.length
    let nbytes ← backUp localbuf nbytes.toNat
    let localbuf ← store localbuf (nbytes + 1) 'Z'
    let localbuf ← store localbuf (nbytes + 2) '\x00'
    let p ← loop max (localbuf.length + 1) ⟨localbuf, addr, []⟩
    let position := seekpos + (localbuf.length - p.lpos.length)
    .ok (⟨p.bytes.length, p.bytes, p.addr⟩, (fsSeek T s fd position fsSeekSet).2)

/-! ### Strings that end inside their buffer -/

section Strings

variable {cs pattern : List Char} {c : Char} {base room : ℕ}

/-- The characters before the null character. -/
def NulFree (cs : List Char) : Prop := ∀ a ∈ cs, a ≠ '\x00'

theorem NulFree.head {a : Char} (h : NulFree (a :: cs)) : a ≠ '\x00' := h a List.mem_cons_self

theorem NulFree.tail {a : Char} (h : NulFree (a :: cs)) : NulFree cs :=
  fun b hb => h b (List.mem_cons_of_mem a hb)

theorem NulFree.suffix {ds : List Char} (h : NulFree cs) (hs : ds <:+ cs) : NulFree ds :=
  fun a ha => h a (hs.subset ha)

theorem nulFree_cString (l : List Char) : NulFree (cString l) := by
  intro a ha
  have := List.mem_takeWhile_imp ha
  simpa using this

/-- A buffer with a null character is a string and what lies behind it. -/
theorem cString_append {l : List Char} (h : '\x00' ∈ l) : ∃ t, l = cString l ++ '\x00' :: t := by
  induction l with
  | nil => cases h
  | cons a l ih =>
    by_cases ha : a = '\x00'
    · rw [ha]
      exact ⟨l, rfl⟩
    · obtain ⟨t, ht⟩ := ih ((List.mem_cons.mp h).resolve_left (Ne.symm ha))
      refine ⟨t, ?_⟩
      rw [cString, List.takeWhile_cons_of_pos (by simpa using ha), List.cons_append]
      exact congrArg (a :: ·) ht

theorem dindex_string (t : List Char) (h : NulFree cs) :
    dindex (cs ++ '\x00' :: t) c = .ok ((Files.dindex cs c).map (· ++ '\x00' :: t)) := by
  induction cs with
  | nil => rfl
  | cons a cs ih =>
    rw [List.cons_append, dindex, if_neg h.head, Files.dindex]
    split
    · rfl
    · exact ih h.tail

theorem dstrncmp_string (cs t : List Char) (hp : NulFree pattern) (n : ℕ) :
    dstrncmp (cs ++ '\x00' :: t) pattern n = .ok (Files.dstrncmp cs pattern n) := by
  induction n generalizing cs pattern with
  | zero => simp only [dstrncmp, Files.dstrncmp]
  | succ n ih =>
    cases pattern with
    | nil => simp only [dstrncmp, Files.dstrncmp]
    | cons b pattern =>
      cases cs with
      | nil =>
        have hlt : '\x00' < b := by
          rw [Char.lt_def]
          apply UInt32.pos_iff_ne_zero.mpr
          intro hz
          exact hp.head (Char.ext hz)
        rw [List.nil_append, dstrncmp, if_neg hp.head.symm, if_pos hlt]
        rfl
      | cons a cs =>
        rw [List.cons_append, dstrncmp, Files.dstrncmp]
        split
        · exact ih cs hp.tail
        · rfl

theorem dstrstr_string (t : List Char) (hp : NulFree pattern) (h : NulFree cs) :
    dstrstr (cs ++ '\x00' :: t) pattern =
      .ok ((Files.dstrstr cs pattern).map (· ++ '\x00' :: t)) := by
  induction cs with
  | nil => rfl
  | cons a cs ih =>
    have horder := dstrncmp_string (a :: cs) t hp pattern.length
    rw [List.cons_append] at horder ⊢
    rw [dstrstr, if_neg h.head, horder, ok_bind, Files.dstrstr]
    split
    · rfl
    · exact ih h.tail

theorem skip_string (t : List Char) :
    skip (cs ++ '\x00' :: t) = .ok (cs.dropWhile isspace ++ '\x00' :: t) := by
  induction cs with
  | nil => rfl
  | cons a cs ih =>
    rw [List.cons_append, skip, List.dropWhile_cons]
    split
    · exact ih
    · rfl

theorem digits_string (v : BitVec 32) (cs t : List Char) (hb : base ≤ 16) :
    digits base v (cs ++ '\x00' :: t) =
      .ok ((Files.digits base v cs).1, (Files.digits base v cs).2 ++ '\x00' :: t) := by
  induction cs generalizing v with
  | nil =>
    have hnul : ¬ curdigit '\x00' < base := by
      rw [show curdigit '\x00' = 1000 from rfl]
      omega
    rw [List.nil_append, digits, if_neg hnul]
    rfl
  | cons a cs ih =>
    rw [List.cons_append, digits, Files.digits]
    split
    · exact ih _
    · rfl

theorem dstrtol_hex (l : List Char) : dstrtol l 16 = (do
    let c ← skip l
    let x ← load c
    if x = '\x00' then .ok (0, c)
    else
      let r ← digits 16 0 (unsigned c)
      .ok (signed c r)) := by
  unfold dstrtol
  congr 1
  funext c
  cases c with
  | nil => rfl
  | cons a c =>
    rw [load, ok_bind, ok_bind]
    by_cases ha : a = '-'
    · subst ha
      rfl
    · rw [unsigned_of_ne ha]
      simp only [signed_of_ne ha, ne_eq, OfNat.ofNat_ne_zero, not_false_eq_true, if_true, ok_bind,
        gt_iff_lt, lt_self_iff_false, if_false]
      split
      · rfl
      · split
        · next e => exact absurd (List.cons.inj e).1 ha
        · rfl

theorem dstrtol_string (t : List Char) (h : NulFree cs) :
    dstrtol (cs ++ '\x00' :: t) 16 =
      .ok ((Files.dstrtol cs 16).1, (Files.dstrtol cs 16).2 ++ '\x00' :: t) := by
  have hd : NulFree (cs.dropWhile isspace) := h.suffix (List.dropWhile_suffix _)
  rw [dstrtol_hex, skip_string, ok_bind, Files.dstrtol_hex]
  generalize cs.dropWhile isspace = ds at hd
  cases ds with
  | nil => rfl
  | cons a ds =>
    rw [List.cons_append, load, ok_bind, if_neg hd.head]
    by_cases ha : a = '-'
    · subst ha
      rw [unsigned, unsigned, digits_string 0 ds t le_rfl]
      rfl
    · rw [unsigned_of_ne ha, unsigned_of_ne ha, ← List.cons_append, digits_string 0 _ t le_rfl,
        ok_bind, List.cons_append, signed_of_ne ha, signed_of_ne ha]

theorem getBytes_nul (t : List Char) (room : ℕ) :
    getBytes ('\x00' :: t) room = .ok ('\x00' :: t, []) := by
  cases t <;> rfl

theorem getBytes_string (t : List Char) (hr : (Files.getBytes cs).2.length ≤ room) :
    getBytes (cs ++ '\x00' :: t) room =
      .ok ((Files.getBytes cs).1 ++ '\x00' :: t, (Files.getBytes cs).2) := by
  induction cs using Files.getBytes.induct generalizing room with
  | case1 => exact getBytes_nul t room
  | case2 c hc =>
    rw [List.singleton_append, getBytes]
    split
    · rw [getBytes_nul]
      simp [Files.getBytes, hc]
    · next hb =>
      have hn : c = '\n' := by
        simp only [Bool.or_eq_true, decide_eq_true_eq] at hc hb
        tauto
      rw [if_pos hn]
      simp [Files.getBytes, hc]
  | case3 c hc =>
    have hb : ¬ (c = ' ' || c = '\t') = true := by
      simp only [Bool.or_eq_true, decide_eq_true_eq] at hc ⊢
      tauto
    have hn : c ≠ '\n' := by
      rintro rfl
      exact hc rfl
    have hx : ¬ (isxdigit c && isxdigit '\x00') = true := by simp [show isxdigit '\x00' = false from rfl]
    rw [List.singleton_append, getBytes, if_neg hb, if_neg hn, if_neg hx, Files.getBytes, if_neg hc]
    rfl
  | case4 c d l hc ih =>
    rw [Files.getBytes, if_pos hc] at hr ⊢
    rw [List.cons_append, List.cons_append, getBytes, if_pos hc]
    exact ih hr
  | case5 d l hc =>
    rw [List.cons_append, List.cons_append, getBytes, if_neg hc, if_pos rfl, Files.getBytes,
      if_neg hc, if_pos rfl]
    rfl
  | case6 c d l hc hn hx rest bytes hl ih =>
    rw [Files.getBytes, if_neg hc, if_neg hn, if_pos hx, hl] at hr ⊢
    rw [hl] at ih
    have hpos : room ≠ 0 := by
      rintro rfl
      cases hr
    have hroom : bytes.length ≤ room - 1 := by
      simp only [List.length_cons] at hr
      omega
    rw [List.cons_append, List.cons_append, getBytes, if_neg hc, if_neg hn, if_pos hx,
      if_neg hpos, ih hroom]
    rfl
  | case7 c d l hc hn hx =>
    rw [List.cons_append, List.cons_append, getBytes, if_neg hc, if_neg hn, if_neg hx,
      Files.getBytes, if_neg hc, if_neg hn, if_neg hx]
    rfl

end Strings

end Raw

end DlxOs.Files
