import DlxOs.Memory.Pages

/-!
# Pages of processes, as in `os/process.c` and `lib/share_memory.o`

A process has a page of its own, a system stack, and shared pages behind its own
page. A table of 32 entries keeps for a shared page the processes that map it.

## Implementation notes

The shared-page routines are those of the assembly in `lib/share_memory.o`. There
are 32 processes, so that an entry has one word of bits. The queues of the PCBs
are left out, and a PCB that is forked is any free one. The calls of
`MemoryFreePage` are kept in order.
-/

namespace DlxOs.Memory

open Kernel (Halt PcbPtr processStatusFree processStatusRunnable processStatusWaiting
  processStatusZombie processStatusMask processTypeSystem processTypeUser)
open Bitmaps

def memoryMaxSharedPages : ℕ := 32

/-- An entry of `spages`. -/
structure SharedPage where
  page : ℕ
  /-- The processes that map the page. -/
  bits : BitVec 32

/-- A call of `MemoryFreePage`, and whether the page was free already. -/
structure FreeCall where
  page : ℕ
  wasFree : Bool

/-- The variables that the pages of processes depend on. -/
structure Os where
  freemap : Freemap
  spages : Fin memoryMaxSharedPages → SharedPage
  pcbs : PcbPtr → PCB
  frees : List FreeCall

namespace Os

def setPcb (s : Os) (pcb : PcbPtr) (b : PCB) : Os :=
  { s with pcbs := Function.update s.pcbs pcb b }

def setFlags (s : Os) (pcb : PcbPtr) (flags : BitVec 32) : Os :=
  s.setPcb pcb { s.pcbs pcb with flags := flags }

def setEntry (s : Os) (i : Fin memoryMaxSharedPages) (e : SharedPage) : Os :=
  { s with spages := Function.update s.spages i e }

/-- The first entry of `spages` with that page. -/
def findEntry (s : Os) (page : ℕ) : Option (Fin memoryMaxSharedPages) :=
  Fin.find? fun i => (s.spages i).page = page

/-- `pcb->pagetable[pcb->npages] = pte; pcb->npages += 1` -/
def appendPte (s : Os) (pcb : PcbPtr) (pte : BitVec 32) : Except Halt Os :=
  let b := s.pcbs pcb
  if h : 0 ≤ b.npages ∧ b.npages.toNat < processMaxPages then
    .ok (s.setPcb pcb { b with
      pagetable := Function.update b.pagetable ⟨b.npages.toNat, h.2⟩ pte
      npages := b.npages + 1 })
  else .error .wildAccess

def allocPage (s : Os) : Except Halt (ℕ × Os) := do
  let (page, m) ← memoryAllocPage s.freemap
  return (page, { s with freemap := m })

def freePage (s : Os) (page : ℕ) : Except Halt Os := do
  let m ← memoryFreePage s.freemap page
  return { s with
    freemap := m
    frees := s.frees ++ [⟨page, isSet s.freemap.freepages page⟩] }

end Os

def processSetStatus (s : Os) (pcb : PcbPtr) (status : BitVec 32) : Os :=
  s.setFlags pcb (((s.pcbs pcb).flags &&& ~~~processStatusMask) ||| status)

def memoryCreateSharedPage (s : Os) (pcb : PcbPtr) : Except Halt (ℕ × Os) := do
  if (s.pcbs pcb).npages = 16 then return (0, s)
  match s.findEntry 0 with
  | none => return (0, s)
  | some i =>
    let (page, s) ← s.allocPage
    if page = 0 then
      throw (.exitsim ["FATAL: couldn't allocate memory - no free pages!\n"])
    let s := s.setEntry i ⟨page, 1#32 <<< pcb.val⟩
    return (page, ← s.appendPte pcb (memorySetupPte (BitVec.ofNat 32 page)))

/-- The search of `mmap` for an entry of the page table that has this frame, from entry `j` on. -/
def findPte (pcb : PCB) (frame : BitVec 32) : ℕ → ℕ → Except Halt ℕ
  | 0, j => .ok j
  | rounds + 1, j => do
    if (← pcb.entry j) &&& memoryPteMask = frame then return j
    findPte pcb frame rounds (j + 1)

/-- The rest of `mmap`, for the entry of `spages` that has the handle. -/
def mmapEntry (s : Os) (pcb : PcbPtr) (handle : BitVec 32) (i : Fin memoryMaxSharedPages) :
    Except Halt (BitVec 32 × Os) := do
  let b := s.pcbs pcb
  let j ← findPte b (handle <<< 16) b.npages.toNat 0
  let share (s : Os) : BitVec 32 × Os :=
    let e := s.spages i
    (BitVec.ofNat 32 j <<< 16, s.setEntry i { e with bits := e.bits ||| (1#32 <<< pcb.val) })
  if j = b.npages then
    if b.npages ≤ 15 then return share (← s.appendPte pcb (memorySetupPte handle))
    else return (0, s)
  else return share s

def mmap (s : Os) (pcb : PcbPtr) (handle : BitVec 32) : Except Halt (BitVec 32 × Os) :=
  if handle = 0 then .ok (0, s) else
    match s.findEntry handle.toNat with
    | none => .ok (0, s)
    | some i => mmapEntry s pcb handle i

/-- The number of bits set. -/
def countBits (bits : BitVec 32) : ℕ := (List.range 32).countP fun b => bits.getLsbD b

/-- The entry of `spages` stays behind when the page is freed. -/
def memoryFreeSharedPte (s : Os) (pcb : PcbPtr) (pagenumber : ℕ) : Except Halt (ℤ × Os) := do
  let page := (← (s.pcbs pcb).entry pagenumber).toNat / memoryPageSize
  if page = 0 then throw (.exitsim ["FATAL: Attempted to free memory page 0\n"])
  match s.findEntry page with
  | none => return (-1, s)
  | some i =>
    let e := s.spages i
    let bits := e.bits &&& (1#32 <<< pcb.val ^^^ 0xffffffff#32)
    let s := s.setEntry i { e with bits := bits }
    let b := s.pcbs pcb
    let s := s.setPcb pcb { b with npages := b.npages - 1 }
    if countBits bits = 0 then return (countBits bits, ← s.freePage page)
    else return (countBits bits, s)

/-- The first loop of `ProcessFreeResources`, with its remaining rounds. -/
def freeSharedPtes (pcb : PcbPtr) : ℕ → ℕ → Os → Except Halt Os
  | 0, _, s => .ok s
  | rounds + 1, i, s => do
    let (_, s) ← memoryFreeSharedPte s pcb i
    freeSharedPtes pcb rounds (i + 1) s

def memoryFreePte (s : Os) (pte : BitVec 32) : Except Halt Os :=
  s.freePage ((pte &&& memoryPteMask).toNat / memoryPageSize)

/-- The second loop of `ProcessFreeResources`, with its remaining rounds. -/
def freePtes (pcb : PcbPtr) : ℕ → ℕ → Os → Except Halt Os
  | 0, _, s => .ok s
  | rounds + 1, i, s => do
    let pte ← (s.pcbs pcb).entry i
    freePtes pcb rounds (i + 1) (← memoryFreePte s pte)

def processFreeResources (s : Os) (pcb : PcbPtr) : Except Halt Os := do
  let s := s.setFlags pcb processStatusFree
  let s ← freeSharedPtes pcb (s.pcbs pcb).npages.toNat 0 s
  let s ← freePtes pcb (s.pcbs pcb).npages.toNat 0 s
  let s ← s.freePage ((s.pcbs pcb).sysStackArea.toNat / memoryPageSize)
  return processSetStatus s pcb processStatusFree

/-- The pages that `ProcessFork` takes, for a PCB that was free. -/
def forkPages (s : Os) (pcb : PcbPtr) : Except Halt Os := do
  let s := processSetStatus s pcb processStatusRunnable
  let s := s.setPcb pcb { s.pcbs pcb with npages := 1 }
  let (newPage, s) ← s.allocPage
  if newPage = 0 then
    throw (.exitsim ["aFATAL: couldn't allocate memory - no free pages!\n"])
  let b := s.pcbs pcb
  let s := s.setPcb pcb { b with
    pagetable := Function.update b.pagetable ⟨0, by decide⟩ (memorySetupPte (BitVec.ofNat 32 newPage)) }
  let (newPage, s) ← s.allocPage
  if newPage = 0 then
    throw (.exitsim ["bFATAL: couldn't allocate system stack - no free pages!\n"])
  return s.setPcb pcb { s.pcbs pcb with
    sysStackArea := BitVec.ofNat 32 (newPage * memoryPageSize) }

/-- The end of `ProcessFork`, as far as it concerns pages; `fd` is the result of
`ProcessGetCodeInfo`, or `none` for a system process. -/
def forkEnd (s : Os) (pcb : PcbPtr) (fd : Option ℤ) : Except Halt (ℤ × Os) := do
  match fd with
  | none => return (pcb.val, s.setFlags pcb ((s.pcbs pcb).flags ||| processTypeSystem))
  | some fd =>
    if fd < 0 then return (-1, ← processFreeResources s pcb)
    else return (pcb.val, s.setFlags pcb ((s.pcbs pcb).flags ||| processTypeUser))

def processFork (s : Os) (pcb : PcbPtr) (fd : Option ℤ) : Except Halt (ℤ × Os) := do
  forkEnd (← forkPages s pcb) pcb fd

/-- `ProcessDestroy` of the running process, and its clean-up by `ProcessSchedule` in the same
trap. -/
def trapExit (s : Os) (pcb : PcbPtr) : Except Halt Os :=
  processFreeResources (processSetStatus s pcb processStatusZombie) pcb

end DlxOs.Memory
