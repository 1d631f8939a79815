import DlxOs.Kernel.State
import DlxOs.Library.Bitmap

/-!
# Memory pages, as in `os/memory.c`

A page is free when its bit in `freepages` is set. A user address is translated
by the page table in the PCB, and a copy between user and system space goes on
page by page until a translation fails.

## Implementation notes

Page numbers are natural numbers, and other words that wrap around are bit
vectors. Debugging output is left out. A copy keeps the calls of `bcopy` that it
makes; it takes the PCB to lie outside the bytes that it writes.
-/

namespace DlxOs.Memory

open Kernel (Halt)
open Bitmaps

def memoryPageSize : ℕ := 65536

def memoryMaxPages : ℕ := 0x10000

/-- The static variables of the allocator. -/
structure Freemap where
  pagestart : BitVec 32
  freemapmax : ℤ
  nfreepages : ℤ
  freepages : Fin (memoryMaxPages / 32) → BitVec 32
  /-- Where `MemoryAllocPage` goes on searching. -/
  mapnum : ℕ

/-- The static variables before the kernel runs. -/
def Freemap.static : Freemap where
  pagestart := 0
  freemapmax := 0
  nfreepages := 0
  freepages _ := 0
  mapnum := 0

def negativeone : BitVec 32 := 0xffffffff

def invert (n : BitVec 32) : BitVec 32 := n ^^^ negativeone

/-- The division and the remainder round towards zero, and become unsigned words. -/
def memorySetFreemap (m : Freemap) (p : ℤ) (b : BitVec 32) : Except Halt Freemap :=
  let wd := (BitVec.ofInt 32 (p.tdiv 32)).toNat
  let bitnum := (BitVec.ofInt 32 (p.tmod 32)).toNat
  if h : wd < memoryMaxPages / 32 then
    let word := (m.freepages ⟨wd, h⟩ &&& invert (1#32 <<< bitnum)) ||| (b <<< bitnum)
    .ok { m with freepages := Function.update m.freepages ⟨wd, h⟩ word }
  else .error .wildAccess

/-- The first loop of `MemoryModuleInit`, with its remaining rounds. -/
def clearFreemap : ℕ → ℕ → Freemap → Except Halt Freemap
  | 0, _, m => .ok m
  | rounds + 1, i, m =>
    if h : i < memoryMaxPages / 32 then
      clearFreemap rounds (i + 1) { m with freepages := Function.update m.freepages ⟨i, h⟩ 0 }
    else .error .wildAccess

/-- The second loop of `MemoryModuleInit`, with its remaining rounds. -/
def freeFrom : ℕ → ℤ → Freemap → Except Halt Freemap
  | 0, _, m => .ok m
  | rounds + 1, curpage, m => do
    freeFrom rounds (curpage + 1)
      (← memorySetFreemap { m with nfreepages := m.nfreepages + 1 } curpage 1)

def memoryModuleInit (memorySize lastosaddress : ℤ) (m : Freemap) : Except Halt Freemap := do
  let maxpage := memorySize.tdiv memoryPageSize
  let pagestart := BitVec.ofInt 32
    ((BitVec.ofInt 32 (lastosaddress + memoryPageSize - 4)).toInt.tdiv memoryPageSize)
  let freemapmax := (maxpage + 31).tdiv 32
  let m ← clearFreemap freemapmax.toNat 0
    { m with pagestart := pagestart, freemapmax := freemapmax }
  freeFrom (maxpage - pagestart.toInt).toNat pagestart.toInt { m with nfreepages := 0 }

/-- The search for a word that is not zero, over at most as many words as there are. -/
def nextMap (freepages : Fin (memoryMaxPages / 32) → BitVec 32) (freemapmax : ℤ) :
    ℕ → ℕ → Except Halt (Fin (memoryMaxPages / 32))
  | 0, _ => .error .diverged
  | fuel + 1, mapnum =>
    if h : mapnum < memoryMaxPages / 32 then
      if freepages ⟨mapnum, h⟩ = 0 then
        nextMap freepages freemapmax fuel
          (if (mapnum + 1 : ℤ) ≥ freemapmax then 0 else mapnum + 1)
      else .ok ⟨mapnum, h⟩
    else .error .wildAccess

def memoryAllocPage (m : Freemap) : Except Halt (ℕ × Freemap) := do
  if m.nfreepages = 0 then return (0, m)
  let mapnum ← nextMap m.freepages m.freemapmax (memoryMaxPages / 32) m.mapnum
  let v := m.freepages mapnum
  match firstBit v 32 0 with
  | none => throw .diverged
  | some bitnum =>
    return (mapnum * 32 + bitnum, { m with
      mapnum := mapnum
      freepages := Function.update m.freepages mapnum (v &&& invert (1#32 <<< bitnum))
      nfreepages := m.nfreepages - 1 })

def memoryFreePage (m : Freemap) (page : ℕ) : Except Halt Freemap := do
  let m ← memorySetFreemap m page 1
  return { m with nfreepages := m.nfreepages + 1 }

def memoryPteValid : BitVec 32 := 0x00000001

def memoryPteDirty : BitVec 32 := 0x00000002

def memoryPteReferenced : BitVec 32 := 0x00000004

def memoryPteMask : BitVec 32 := ~~~(memoryPteValid ||| memoryPteDirty ||| memoryPteReferenced)

def memorySetupPte (page : BitVec 32) : BitVec 32 :=
  (page * BitVec.ofNat 32 memoryPageSize) ||| memoryPteValid

def processMaxPages : ℕ := 16

/-- The part of a PCB that describes the memory of its process. -/
structure PCB where
  sysStackArea : BitVec 32
  flags : BitVec 32
  pagetable : Fin processMaxPages → BitVec 32
  npages : ℤ

/-- `pcb->pagetable[page]`; the field `npages` comes right after the table. -/
def PCB.entry (pcb : PCB) (page : ℕ) : Except Halt (BitVec 32) :=
  if h : page < processMaxPages then .ok (pcb.pagetable ⟨page, h⟩)
  else if page = processMaxPages then .ok (BitVec.ofInt 32 pcb.npages)
  else .error .wildAccess

def memoryTranslateUserToSystem (pcb : PCB) (addr : BitVec 32) : Except Halt (BitVec 32) := do
  let page := addr.toNat / memoryPageSize
  let offset := addr.toNat % memoryPageSize
  if (page : ℤ) > pcb.npages then return 0
  return ((← pcb.entry page) &&& memoryPteMask) + BitVec.ofNat 32 offset

abbrev Bytes := BitVec 32 → BitVec 8

/-- Copy bytes from one location to another, from the first to the last. -/
def bcopy (src dst : BitVec 32) : ℕ → Bytes → Bytes
  | 0, mem => mem
  | count + 1, mem => bcopy (src + 1) (dst + 1) count (Function.update mem dst (mem src))

/-- A call of `bcopy` by `moveBetweenSpaces`. -/
structure Chunk where
  curUser : BitVec 32
  bytesToCopy : ℕ

/-- What a copy has done so far. -/
structure Copied where
  mem : Bytes
  bytesCopied : ℤ
  chunks : List Chunk

/-- One call of `bcopy`, in the direction of the copy. -/
def Copied.move (c : Copied) (curUser s : BitVec 32) (bytesToCopy : ℕ) (dir : ℤ) : Copied where
  mem := if dir ≥ 0 then bcopy s curUser bytesToCopy c.mem else bcopy curUser s bytesToCopy c.mem
  bytesCopied := c.bytesCopied + bytesToCopy
  chunks := c.chunks ++ [⟨curUser, bytesToCopy⟩]

/-- The smaller of the bytes left on the page and the bytes left to copy. -/
def bytesToCopy (curUser : BitVec 32) (n : ℕ) : ℕ :=
  min (memoryPageSize - curUser.toNat % memoryPageSize) n

theorem bytesToCopy_pos (curUser : BitVec 32) {n : ℕ} (hn : n ≠ 0) : 0 < bytesToCopy curUser n := by
  have := Nat.mod_lt curUser.toNat (show 0 < memoryPageSize by decide)
  unfold bytesToCopy
  omega

/-- The loop of `moveBetweenSpaces`, with `n` bytes left to copy. -/
def moveLoop (pcb : PCB) (dir : ℤ) (s u : BitVec 32) (n : ℕ) (c : Copied) : Except Halt Copied :=
  if n = 0 then .ok c else
    memoryTranslateUserToSystem pcb u >>= fun curUser =>
      if curUser = 0 then .ok c else
        let k := bytesToCopy curUser n
        moveLoop pcb dir (s + BitVec.ofNat 32 k) (u + BitVec.ofNat 32 k) (n - k)
          (c.move curUser s k dir)
termination_by n
decreasing_by
  have := bytesToCopy_pos curUser ‹¬n = 0›
  omega

/-- A length that is not positive copies nothing. -/
def moveBetweenSpaces (pcb : PCB) (s u : BitVec 32) (n dir : ℤ) (mem : Bytes) :
    Except Halt Copied :=
  moveLoop pcb dir s u n.toNat ⟨mem, 0, []⟩

def memoryCopySystemToUser (pcb : PCB) («from» «to» : BitVec 32) (n : ℤ) (mem : Bytes) :
    Except Halt Copied :=
  moveBetweenSpaces pcb «from» «to» n 1 mem

def memoryCopyUserToSystem (pcb : PCB) («from» «to» : BitVec 32) (n : ℤ) (mem : Bytes) :
    Except Halt Copied :=
  moveBetweenSpaces pcb «to» «from» n (-1) mem

end DlxOs.Memory
