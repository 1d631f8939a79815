import DlxOs.Memory.Pages

/-!
# The handlers of traps with strings, as in `os/traps.c`

A handler copies the arguments of a trap into arrays on the kernel stack. What
an array held before is left over from earlier calls and stays where a copy
does not reach.

## Implementation notes

User memory is given by what each address reads as, or nothing if its page is
not mapped, and system memory by its bytes. A word in memory has its highest
byte first. An access outside an array is an error.
-/

namespace DlxOs.Traps

open Kernel (Halt)
open Memory (Bytes)

abbrev Byte := BitVec 8

abbrev Word := BitVec 32

/-- A local array of characters. -/
abbrev Chars (n : ℕ) := Fin n → Byte

/-- What the addresses of a process read as. -/
abbrev UserSpace := Word → Option Byte

variable {n : ℕ}

/-- `s[i]` -/
def Chars.load (s : Chars n) (i : ℕ) : Except Halt Byte :=
  if h : i < n then .ok (s ⟨i, h⟩) else .error .wildAccess

/-- `s[i] = b` -/
def Chars.store (s : Chars n) (i : ℕ) (b : Byte) : Except Halt (Chars n) :=
  if h : i < n then .ok (Function.update s ⟨i, h⟩ b) else .error .wildAccess

/-- The word at index `i` of an array of words that is kept as characters. -/
def Chars.word (s : Chars n) (i : ℕ) : Except Halt Word := do
  return (← s.load (4 * i)) ++ (← s.load (4 * i + 1)) ++ (← s.load (4 * i + 2)) ++
    (← s.load (4 * i + 3))

/-- `MemoryCopyUserToSystem (currentPCB, u, s + i, n)` stops at the first address that is not
mapped. -/
def memoryCopyUserToSystem (space : UserSpace) (u : Word) (s : Chars n) (i : ℕ) :
    ℕ → Except Halt (Chars n)
  | 0 => .ok s
  | count + 1 =>
    match space u with
    | none => .ok s
    | some b => do memoryCopyUserToSystem space (u + 1) (← s.store i b) (i + 1) count

/-- The loop that copies the string at `a` to index `i` on, up to its null character or the end of
the array, with its remaining rounds. -/
def copyString (space : UserSpace) : ℕ → Word → ℕ → Chars n → Except Halt (ℕ × Chars n)
  | 0, _, _, _ => .error .diverged
  | rounds + 1, a, i, s => do
    let s ← memoryCopyUserToSystem space a s i 1
    if i + 1 < n then
      if (← s.load i) ≠ 0 then copyString space rounds (a + 1) (i + 1) s
      else return (i + 1, s)
    else return (i + 1, s)

/-- `bcopy ((char *)a, (char *)s, sizeof (s))` -/
def bcopy (mem : Bytes) (a : Word) : Chars n := fun i => mem (a + BitVec.ofNat 32 i)

/-- `dstrncpy (to, from, n)` from a local array to an address. -/
def dstrncpy (mem : Bytes) («to» : Word) («from» : Chars n) (i : ℕ) : ℕ → Except Halt Bytes
  | 0 => .ok mem
  | count + 1 => do
    let last ← from.load i
    let mem := Function.update mem «to» last
    if last ≠ 0 then dstrncpy mem («to» + 1) «from» (i + 1) count else return mem

/-- `dstrcpy (to, from)` from an address to a local array, with its remaining rounds. -/
def dstrcpy (mem : Bytes) (i : ℕ) («to» : Chars n) («from» : Word) : ℕ → Except Halt (Chars n)
  | 0 => .error .diverged
  | rounds + 1 => do
    let last := mem «from»
    let «to» ← to.store i last
    if last ≠ 0 then dstrcpy mem (i + 1) «to» («from» + 1) rounds else return «to»

def dstrlen (mem : Bytes) (s : Word) (i : ℕ) : ℕ → Except Halt ℕ
  | 0 => .error .diverged
  | rounds + 1 => if mem s ≠ 0 then dstrlen mem (s + 1) (i + 1) rounds else return i

/-- More rounds than a string can have characters. -/
def maxRounds : ℕ := 2 ^ 32

/-! ### Creation of processes -/

def sizeArgBuff : ℕ := 1024

def maxArgs : ℕ := 128

/-- The arrays of `TrapProcessCreateHandler`. -/
structure CreateArrays where
  allargs : Chars sizeArgBuff
  name : Chars 100
  args : Chars (4 * maxArgs)

/-- The strings that `ProcessFork` is called with. -/
structure ForkCall where
  allargs : Chars sizeArgBuff
  name : Chars 100

/-- `allargs` with its first 100 characters cleared. -/
def cleared (allargs : Chars sizeArgBuff) : Chars sizeArgBuff :=
  fun i => if i.val < 100 then 0 else allargs i

/-- The loop over the arguments of a user process, from argument `j` on. -/
def copyArgs (space : UserSpace) (args : Chars (4 * maxArgs)) :
    ℕ → ℕ → ℕ → Chars sizeArgBuff → Except Halt (Chars sizeArgBuff)
  | 0, _, _, allargs => .ok allargs
  | rounds + 1, j, i, allargs => do
    let a ← args.word j
    if a ≠ 0 then
      let (i, allargs) ← copyString space sizeArgBuff a i allargs
      copyArgs space args rounds (j + 1) i allargs
    else return allargs

/-- `TrapProcessCreateHandler` for a user process. -/
def trapProcessCreateUser (space : UserSpace) (trapArgs : Word) (l : CreateArrays) :
    Except Halt ForkCall := do
  let args ← memoryCopyUserToSystem space trapArgs l.args 0 (4 * maxArgs)
  let (_, name) ← copyString space 100 (← args.word 0) 0 l.name
  let name ← name.store 99 0
  let allargs ← copyArgs space args 11 0 0 (cleared l.allargs)
  let allargs ← allargs.store 1023 0
  return ⟨allargs, name⟩

/-- The loop over the arguments in system mode, which copies each to the same place. -/
def copyArgsSystem (mem : Bytes) (args : Chars (4 * maxArgs)) :
    ℕ → ℕ → Chars sizeArgBuff → Except Halt (Chars sizeArgBuff)
  | 0, _, allargs => .ok allargs
  | rounds + 1, j, allargs => do
    let a ← args.word j
    if a ≠ 0 then
      let k ← dstrlen mem a 0 maxRounds
      if k > 100 then
        throw (.exitsim ["Fatal: Cumulative length of all arguments > 100\n"])
      let allargs ← dstrcpy mem 0 allargs a maxRounds
      let allargs ← allargs.store k 0
      copyArgsSystem mem args rounds (j + 1) allargs
    else return allargs

/-- `TrapProcessCreateHandler` in system mode, with the memory that it leaves. -/
def trapProcessCreateSystem (mem : Bytes) (trapArgs : Word) (l : CreateArrays) :
    Except Halt (ForkCall × Bytes) := do
  let args : Chars (4 * maxArgs) := bcopy mem trapArgs
  let mem ← dstrncpy mem (← args.word 0) l.name 0 100
  let name ← l.name.store 99 0
  let allargs ← copyArgsSystem mem args 11 0 (cleared l.allargs)
  let allargs ← allargs.store 1023 0
  return (⟨allargs, name⟩, mem)

/-! ### Printing -/

/-- The arrays of `TrapPrintfHandler`. -/
structure PrintfArrays where
  formatstr : Chars 80
  printfArgs : Fin 10 → Word
  args : Chars 40

/-- What the scan of the format has done. -/
structure Scan where
  printfArgs : Fin 10 → Word
  nargs : ℕ
  /-- The last character of the format that was read. -/
  furthest : ℕ

/-- `*c` for the character at index `c`. -/
def Scan.read (t : Scan) (formatstr : Chars 80) (c : ℕ) : Except Halt (Byte × Scan) := do
  return (← formatstr.load c, { t with furthest := max t.furthest c })

/-- `printfArgs[nargs] = args[nargs+1]` -/
def Scan.take (t : Scan) (args : Chars 40) : Except Halt Scan := do
  let arg ← args.word (t.nargs + 1)
  if h : t.nargs < 10 then
    return { t with printfArgs := Function.update t.printfArgs ⟨t.nargs, h⟩ arg }
  else throw .wildAccess

def ascii (c : Char) : Byte := BitVec.ofNat 8 c.toNat

/-- The inner loop, which ends at the character that says what to print, with its remaining
rounds. -/
def scanConversion (formatstr : Chars 80) (args : Chars 40) :
    ℕ → ℕ → Scan → Except Halt (ℕ × Scan)
  | 0, _, _ => .error .diverged
  | rounds + 1, c, t => do
    let c := c + 1
    let (b, t) ← t.read formatstr c
    if b = ascii 's' then return (c, t)
    else if b = ascii 'l' then scanConversion formatstr args rounds c t
    else if b = ascii 'f' ∨ b = ascii 'g' ∨ b = ascii 'e' then
      return (c, ← { t with nargs := t.nargs + 1 }.take args)
    else if ascii 'a' ≤ b ∧ b ≤ ascii 'z' then return (c, t)
    else scanConversion formatstr args rounds c t

/-- The scan of the format from index `c` on, with its remaining rounds. -/
def scanFormat (formatstr : Chars 80) (args : Chars 40) : ℕ → ℕ → Scan → Except Halt Scan
  | 0, _, _ => .error .diverged
  | rounds + 1, c, t => do
    let (b, t) ← t.read formatstr c
    if b = 0 then return t
    else if b = ascii '%' then
      let (b, t) ← t.read formatstr (c + 1)
      if b = ascii '%' then scanFormat formatstr args rounds (c + 2) t
      else
        let (c, t) ← scanConversion formatstr args 80 c (← t.take args)
        scanFormat formatstr args rounds (c + 1) { t with nargs := t.nargs + 1 }
    else scanFormat formatstr args rounds (c + 1) t

/-- The call of `printf`, with what the scan did. -/
structure PrintfCall where
  formatstr : Chars 80
  scan : Scan

/-- The scan, which both modes share. -/
def printfCall (formatstr : Chars 80) (args : Chars 40) (printfArgs : Fin 10 → Word) :
    Except Halt PrintfCall := do
  return ⟨formatstr, ← scanFormat formatstr args 80 0 ⟨printfArgs, 0, 0⟩⟩

/-- The format of a user process; it is at most 79 characters long. -/
def userFormat (space : UserSpace) (args : Chars 40) (formatstr : Chars 80) :
    Except Halt (Chars 80) := do
  let (_, formatstr) ← copyString space 80 (← args.word 0) 0 formatstr
  formatstr.store 79 0

/-- The format in system mode, and the memory that fetching it leaves. -/
def systemFormat (mem : Bytes) (args : Chars 40) (formatstr : Chars 80) :
    Except Halt (Chars 80 × Bytes) := do
  let mem ← dstrncpy mem (← args.word 0) formatstr 0 80
  return (← formatstr.store 79 0, mem)

/-- `TrapPrintfHandler` for a user process. -/
def trapPrintfUser (space : UserSpace) (trapArgs : Word) (l : PrintfArrays) :
    Except Halt PrintfCall := do
  let args ← memoryCopyUserToSystem space trapArgs l.args 0 40
  printfCall (← userFormat space args l.formatstr) args l.printfArgs

/-- `TrapPrintfHandler` in system mode, with the memory that it leaves. -/
def trapPrintfSystem (mem : Bytes) (trapArgs : Word) (l : PrintfArrays) :
    Except Halt (PrintfCall × Bytes) := do
  let args : Chars 40 := bcopy mem trapArgs
  let (formatstr, mem) ← systemFormat mem args l.formatstr
  return (← printfCall formatstr args l.printfArgs, mem)

end DlxOs.Traps
