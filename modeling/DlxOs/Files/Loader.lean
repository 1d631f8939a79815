import DlxOs.Files.FileSystem
import DlxOs.Kernel.State

/-!
# Loading object files, as in `os/process.c` and `os/misc.c`

`ProcessGetCodeInfo` opens an object file and reads its header line.
`ProcessGetFromFile` delivers the bytes of the lines that follow, some lines at
a time.

## Implementation notes

A string is the list of its characters up to the null character, and a pointer
into it is the rest of the string. What lies behind a buffer on the stack, and
the address of the buffer, are parameters where the source gets to them.
-/

namespace DlxOs.Files

open Kernel (Halt)

variable {σ : Type}

/-! ### Strings and numbers -/

/-- The characters before the null character. -/
def cString (l : List Char) : List Char := l.takeWhile (· ≠ '\x00')

def dstrstr : List Char → List Char → Option (List Char)
  | [], _ => none
  | c :: s, pattern =>
    if dstrncmp (c :: s) pattern pattern.length = 0 then some (c :: s) else dstrstr s pattern

def dindex : List Char → Char → Option (List Char)
  | [], _ => none
  | a :: s, c => if a = c then some (a :: s) else dindex s c

def isspace (c : Char) : Bool := c = ' ' || c = '\t' || c = '\n'

/-- Of the capital letters, only the `A` is taken for a digit. -/
def isxdigit (c : Char) : Bool :=
  ('0' ≤ c && c ≤ '9') || ('a' ≤ c && c ≤ 'f') || ('A' ≤ c && c ≤ 'A')

def getxvalue (x : Char) : ℕ :=
  if '0' ≤ x ∧ x ≤ '9' then x.toNat - '0'.toNat
  else if 'a' ≤ x ∧ x ≤ 'f' then x.toNat + 10 - 'a'.toNat
  else if 'A' ≤ x ∧ x ≤ 'F' then x.toNat + 10 - 'A'.toNat
  else 0

/-- The variable `curdigit` of `dstrtol`. -/
def curdigit (c : Char) : ℕ :=
  if '0' ≤ c ∧ c ≤ '9' then c.toNat - '0'.toNat
  else if 'a' ≤ c ∧ c ≤ 'z' then c.toNat + 10 - 'a'.toNat
  else if 'A' ≤ c ∧ c ≤ 'Z' then c.toNat + 10 - 'A'.toNat
  else 1000

/-- The loop of `dstrtol` over the digits. -/
def digits (base : ℕ) : BitVec 32 → List Char → BitVec 32 × List Char
  | v, [] => (v, [])
  | v, c :: s =>
    if curdigit c < base then
      digits base (v * BitVec.ofNat 32 base + BitVec.ofNat 32 (curdigit c)) s
    else (v, c :: s)

/-- The value, and the place that the parsing got to. -/
def dstrtol (c : List Char) (base : ℕ) : BitVec 32 × List Char :=
  let c := c.dropWhile isspace
  let (negative, s) := match c with
    | '-' :: s => (true, s)
    | _ => (false, c)
  let (base, s) := if base ≠ 0 then (base, s) else match s with
    | '0' :: 'x' :: s => (16, s)
    | '0' :: 'X' :: s => (16, s)
    | '0' :: s => (8, s)
    | _ => (10, s)
  if base > 16 then (0, c) else
    let (v, s) := digits base 0 s
    (if negative then -v else v, s)

/-! ### The header line -/

/-- The arguments through which `ProcessGetCodeInfo` returns numbers. -/
structure CodeInfo where
  startAddr : BitVec 32
  codeStart : BitVec 32
  codeSize : BitVec 32
  dataStart : BitVec 32
  dataSize : BitVec 32

/-- Where the buffer of `ProcessGetCodeInfo` lies, and what lies behind it. -/
structure Frame where
  address : ℤ
  behind : List Char

/-- The numbers of the header line, the second of which is not returned. -/
def headerNumbers (pos : List Char) : CodeInfo :=
  let (startAddr, pos) := dstrtol pos 16
  let (_, pos) := dstrtol pos 16
  let (codeStart, pos) := dstrtol pos 16
  let (codeSize, pos) := dstrtol pos 16
  let (dataStart, pos) := dstrtol pos 16
  let (dataSize, _) := dstrtol pos 16
  { startAddr, codeStart, codeSize, dataStart, dataSize }

/-- The difference of `1 + dindex (buf, '\n')` and `buf`. -/
def firstLine (stack : Frame) (buf : List Char) : ℤ :=
  match dindex buf '\n' with
  | some rest => 1 + (buf.length - rest.length)
  | none => 1 - stack.address

def processGetCodeInfo (T : Traps σ) (stack : Frame) (s : FsState σ) (file : List Char) :
    (ℤ × Option CodeInfo) × FsState σ :=
  let (fd, s) := fsOpen T s file fsModeRead
  if fd < 0 then ((-1, none), s) else
    let ((totalsize, bytes), s) := fsRead T s fd 100
    if totalsize ≠ 100 then ((-1, none), (fsClose T s fd).2) else
      let buf := cString (bytes ++ stack.behind)
      match dstrstr buf "start:".toList with
      | none => ((-1, none), s)
      | some _ =>
        let pos := ((dindex buf ':').getD []).drop 1
        ((fd, some (headerNumbers pos)), (fsSeek T s fd (firstLine stack buf) fsSeekSet).2)

/-! ### The lines with data -/

/-- The characters up to the last newline, which is looked for from the end. -/
def upToNewline (l : List Char) : List Char := (l.reverse.dropWhile (· ≠ '\n')).reverse

/-- The inner loop of `ProcessGetFromFile`: where it ends, and the bytes that it stores. -/
def getBytes : List Char → List Char × List (BitVec 8)
  | [] => ([], [])
  | [c] => if c = '\n' || c = ' ' || c = '\t' then ([], []) else ([c], [])
  | c :: d :: l =>
    if c = ' ' || c = '\t' then getBytes (d :: l)
    else if c = '\n' then (d :: l, [])
    else if isxdigit c && isxdigit d then
      let (rest, bytes) := getBytes l
      (rest, BitVec.ofNat 8 (getxvalue c * 16 + getxvalue d) :: bytes)
    else (c :: d :: l, [])

/-- The position in the buffer, the address and the bytes stored. -/
structure Progress where
  lpos : List Char
  addr : BitVec 32
  bytes : List (BitVec 8)

/-- The rest of a round of the outer loop, and whether the loop goes on. -/
def Progress.line (p : Progress) : Bool × Progress :=
  match p.lpos with
  | ':' :: l =>
    let (rest, bytes) := getBytes l
    (true, ⟨rest, p.addr + BitVec.ofNat 32 bytes.length, p.bytes ++ bytes⟩)
  | _ => (false, p)

/-- One round of the outer loop, and whether the loop goes on. -/
def Progress.round (p : Progress) : Bool × Progress :=
  if dindex p.lpos 'Z' = none ∨ dindex p.lpos ':' = none then (false, p)
  else if p.lpos.head? = some ':' then p.line
  else if p.bytes ≠ [] then (false, p)
  else
    let (addr, lpos) := dstrtol p.lpos 16
    { p with addr, lpos : Progress }.line

/-- The outer loop of `ProcessGetFromFile`; `fuel` bounds the rounds. -/
def Progress.loop : ℕ → Progress → Progress
  | 0, p => p
  | fuel + 1, p =>
    let (more, p) := p.round
    if more then Progress.loop fuel p else p

/-- What `ProcessGetFromFile` leaves behind: the number of bytes, the bytes and the address. -/
structure Chunk where
  nbytes : ℤ
  buf : List (BitVec 8)
  addr : BitVec 32

def processGetFromFile (T : Traps σ) (s : FsState σ) (fd : ℤ) (addr : BitVec 32) (max : ℕ) :
    Except Halt (Chunk × FsState σ) :=
  let (seekpos, s) := fsSeek T s fd 0 fsSeekCur
  let ((nbytes, bytes), s) := fsRead T s fd (min (max * 2) 200 : ℕ)
  if nbytes ≤ 0 then .ok (⟨0, [], addr⟩, s) else
    let lines := upToNewline (bytes.take nbytes.toNat)
    if lines = [] then .error .wildAccess else
      let localbuf := cString (lines ++ ['Z'])
      let p := Progress.loop localbuf.length ⟨localbuf, addr, []⟩
      let position := seekpos + (localbuf.length - p.lpos.length)
      .ok (⟨p.bytes.length, p.bytes, p.addr⟩, (fsSeek T s fd position fsSeekSet).2)

end DlxOs.Files
