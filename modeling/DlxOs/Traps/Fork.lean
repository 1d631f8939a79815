import DlxOs.Files.Programs
import DlxOs.Traps.Launch
import DlxOs.Traps.Scanned

/-!
# The fork of a user process

`ProcessFork` for a user process as a whole. It takes a PCB and names it, takes
two pages, reads the object file into the first one, puts the arguments there,
and links the process to the run queue.

## Implementation notes

Each module keeps its part of the state. Of the stack frame of the new process
the stack pointer and the address of its first instruction are kept, as the
other entries are the same for all processes.
-/

namespace DlxOs.Traps

open Kernel (Halt PcbPtr KState ok_bind)
open Memory (Bytes)

variable {σ : Type}

/-- The simulator with its files, and where `ProcessGetCodeInfo` has its buffer. -/
structure Simulator (σ : Type) where
  traps : Files.Traps σ
  disk : Files.Disk traps
  /-- The address of `buf`. -/
  buf : ℤ
  buf_pos : 1 < buf

/-- The kernel, and the memory outside the stack area. -/
structure Sys (σ : Type) where
  kernel : KState
  pages : Memory.Os
  files : Files.FsState σ
  /-- The fields `name` of the PCBs. -/
  names : PcbPtr → PcbName
  mem : Bytes

/-- The local arrays of `ProcessFork` and `ProcessGetFromFile` as they are before. -/
structure ForkArrays where
  dum : Dum
  localbuf : ℕ → Fin 204 → Char

/-- What a new process starts with. -/
structure Entry where
  /-- Register 29. -/
  sp : Word
  start : Word

def fileName (name : List Byte) : List Char := name.map fun b => Char.ofNat b.toNat

/-- What `ProcessFork` does with the bytes of a call of `ProcessGetFromFile`. -/
def placeChunk (pcb : Memory.PCB) (c : Files.Chunk) (mem : Bytes) : Except Halt Bytes :=
  memoryCopySystemToUser pcb c.buf (c.addr - BitVec.ofInt 32 c.nbytes) mem

/-- The part of `ProcessFork` for a user process that has its pages. -/
def loadUser (E : Simulator σ) (pcb : PcbPtr) (call : ForkCall) (l : ForkArrays) (s : Sys σ) :
    Except Halt (Option Entry × Sys σ) := do
  let file := fileName call.name.held
  let ((fd, info), files) ← Files.Raw.processGetCodeInfo E.traps E.buf s.files file
  let (_, pages) ← Memory.forkEnd s.pages pcb (some fd)
  match info with
  | none =>
    let (_, kernel) ← (Kernel.processFreeResources pcb).run s.kernel
    return (none, ⟨kernel, pages, files, s.names, s.mem⟩)
  | some info =>
    let (mem, files) ← Files.loadLoop E.traps l.localbuf (placeChunk (pages.pcbs pcb)) fd
      ((E.disk.file file).length + 1) files 0 s.mem
    let (_, files) := Files.fsClose E.traps files fd
    let (sp, mem) ← startArguments (pages.pcbs pcb) call.allargs l.dum mem
    let (_, kernel) ← (Kernel.forkRun pcb Kernel.processTypeUser).run s.kernel
    return (some ⟨sp, info.startAddr⟩, ⟨kernel, pages, files, s.names, mem⟩)

def processFork (E : Simulator σ) (call : ForkCall) (l : ForkArrays) (s : Sys σ) :
    Except Halt (Option Entry × Sys σ) := do
  let (pcb, kernel) ← Kernel.takePcb.run s.kernel
  let name ← copyChars call.name 100 0 (s.names pcb)
  let pages ← Memory.forkPages s.pages pcb
  loadUser E pcb call l { s with
    kernel := kernel
    pages := pages
    names := Function.update s.names pcb name }

/-! ### What decides about the start -/

/-- The file of that name is opened and has a header line. -/
def Simulator.Launches (E : Simulator σ) (s : Sys σ) (name : List Byte) : Prop :=
  Files.OpensFile E.traps s.files (fileName name) ∧ Files.Starts (E.disk.file (fileName name))

/-- Each search for the header line ends in its buffer. -/
def Simulator.HeaderRead (E : Simulator σ) (s : Sys σ) (name : List Byte) : Prop :=
  Files.HeaderRead E.traps s.files (fileName name) (E.disk.file (fileName name))

/-- A PCB that is on no queue any more. -/
structure Taken (K : KState) (pcb : PcbPtr) : Prop where
  table : Kernel.Table K
  gone : ∀ q, q.isTable = true → pcb ∉ K.list q
  status : K.statusOf pcb = Kernel.processStatusRunnable

section Load

variable {E : Simulator σ} {pcb : PcbPtr} {call : ForkCall} {l : ForkArrays} {s : Sys σ}
  {name : List Byte} {o t : Memory.Os} {fd : ℤ}

theorem forkEnd_refused (h : Memory.forkPages o pcb = .ok t) (hfd : fd < 0) :
    ∃ t', Memory.forkEnd t pcb (some fd) = .ok (-1, t') := by
  obtain ⟨page, stack, m₁, m₂, hm₁, hne, hm₂, hne', rfl⟩ := Memory.forkPages_inv h
  obtain ⟨t', e, -⟩ := (Memory.Os.took_oneEntry (p := pcb) hm₁ hne hm₂ hne').freeResources
  refine ⟨t', (if_pos hfd).trans ?_⟩
  rw [e]
  rfl

theorem forkEnd_onePage (h : Memory.forkPages o pcb = .ok t) (hfd : 0 ≤ fd) :
    ∃ rv t' frame, Memory.forkEnd t pcb (some fd) = .ok (rv, t') ∧ OnePage (t'.pcbs pcb) frame := by
  have e : Memory.forkEnd t pcb (some fd) = .ok _ := if_neg (not_lt.mpr hfd)
  obtain ⟨frame, hpage⟩ := fork_onePage hfd (show Memory.processFork o pcb (some fd) = .ok _ by
    unfold Memory.processFork
    rw [h, ok_bind, e])
  exact ⟨_, _, frame, e, hpage⟩

theorem placeChunk_ends {b : Memory.PCB} {frame : Word} (h : OnePage b frame) (c : Files.Chunk)
    (mem : Bytes) : ∃ mem', placeChunk b c mem = .ok mem' :=
  copy_ends h.mapped _ _ mem

theorem loadUser_wild (h : ¬ E.HeaderRead s name) (hname : StringAt call.name 0 name) :
    loadUser E pcb call l s = .error .wildAccess := by
  unfold loadUser
  simp only [held_of_stringAt hname]
  rw [Files.codeInfo_wild (E.disk.ordinary _ _) (E.disk.reads _ _) h]
  rfl

/-- A file that is refused is refused whatever the arrays held. -/
theorem loadUser_refused (ht : Taken s.kernel pcb) (hp : Memory.forkPages o pcb = .ok s.pages)
    (hread : E.HeaderRead s name) (hno : ¬ E.Launches s name) :
    ∃ s', s'.names = s.names ∧ ∀ call l, StringAt call.name 0 name →
      loadUser E pcb call l s = .ok (none, s') := by
  obtain ⟨fd, files, hfd, hinfo⟩ := Files.codeInfo_refused E.disk hread hno
  obtain ⟨pages, hpages⟩ := forkEnd_refused hp hfd
  obtain ⟨h', b', hkernel, -⟩ := Kernel.processFreeResources_spec ht.table ht.gone
  refine ⟨⟨s.kernel.remake h' b', pages, files, s.names, s.mem⟩, rfl, fun call l hname => ?_⟩
  unfold loadUser
  simp only [held_of_stringAt hname]
  rw [hinfo, ok_bind]
  simp only
  rw [hpages, ok_bind]
  simp only
  rw [hkernel]
  rfl

/-- A line that does not end in its buffer is read outside. -/
theorem loadUser_lines (hp : Memory.forkPages o pcb = .ok s.pages) (hread : E.HeaderRead s name)
    (hlaunch : E.Launches s name) (hlines : ¬ Files.LinesEnd (E.disk.file (fileName name)))
    (hname : StringAt call.name 0 name) : loadUser E pcb call l s = .error .wildAccess := by
  obtain ⟨u, fd, info, files, hinfo, hfd, hreading⟩ :=
    Files.codeInfo_accepted E.disk E.buf_pos hread hlaunch.1 hlaunch.2
  obtain ⟨rv, pages, frame, hpages, hpage⟩ := forkEnd_onePage hp hfd
  unfold Files.LinesEnd at hlines
  push Not at hlines
  obtain ⟨k, hcomes, hline⟩ := hlines
  have hload := Files.loadLoop_wild (n := (E.disk.file (fileName name)).length + 1)
    (E.disk.ordinary _ _) hreading (placeChunk_ends hpage) hcomes hline l.localbuf 0 s.mem
    (by omega)
  unfold loadUser
  simp only [held_of_stringAt hname]
  rw [hinfo, ok_bind]
  simp only
  rw [hpages, ok_bind]
  simp only
  rw [hload]
  rfl

/-- A process that is started gets its arguments, and else the same whatever the arrays held. -/
theorem loadUser_started (ht : Taken s.kernel pcb) (hp : Memory.forkPages o pcb = .ok s.pages)
    (hread : E.HeaderRead s name) (hlaunch : E.Launches s name)
    (hlines : Files.LinesEnd (E.disk.file (fileName name))) :
    ∃ start kernel pages files mem frame, OnePage (pages.pcbs pcb) frame ∧
      ∀ call l, StringAt call.name 0 name → loadUser E pcb call l s =
        startArguments (pages.pcbs pcb) call.allargs l.dum mem >>= fun r =>
          .ok (some ⟨r.1, start⟩, ⟨kernel, pages, files, s.names, r.2⟩) := by
  obtain ⟨u, fd, info, files, hinfo, hfd, hreading⟩ :=
    Files.codeInfo_accepted E.disk E.buf_pos hread hlaunch.1 hlaunch.2
  obtain ⟨rv, pages, frame, hpages, hpage⟩ := forkEnd_onePage hp hfd
  obtain ⟨⟨mem, files'⟩, hload⟩ := Files.loadLoop_ends
    (n := (E.disk.file (fileName name)).length + 1) (E.disk.ordinary _ _) hreading
    (placeChunk_ends hpage) hlines 0 s.mem (by omega)
  obtain ⟨h', b', hkernel, -⟩ := Kernel.forkRun_spec ht.table ht.gone ht.status
    (t := Kernel.processTypeUser) (by decide)
  generalize (s.kernel.remake h' b').setCurrent _ = kernel at hkernel
  refine ⟨info.startAddr, kernel, pages, (Files.fsClose E.traps files' fd).2, mem, frame, hpage,
    fun call l hname => ?_⟩
  unfold loadUser
  simp only [held_of_stringAt hname]
  rw [hinfo, ok_bind]
  simp only
  rw [hpages, ok_bind]
  simp only
  rw [hload, ok_bind, hkernel]
  rfl

/-- `loadUser` leaves the names of the PCBs. -/
theorem loadUser_names {r : Option Entry × Sys σ} (h : loadUser E pcb call l s = .ok r) :
    r.2.names = s.names := by
  unfold loadUser at h
  obtain ⟨⟨⟨fd, info⟩, files⟩, -, h⟩ := Kernel.ok_bind_inv h
  obtain ⟨⟨rv, pages⟩, -, h⟩ := Kernel.ok_bind_inv h
  cases info with
  | none =>
    obtain ⟨⟨_, kernel⟩, -, h⟩ := Kernel.ok_bind_inv h
    obtain rfl := Except.ok.inj h
    rfl
  | some info =>
    obtain ⟨⟨mem, files'⟩, -, h⟩ := Kernel.ok_bind_inv h
    obtain ⟨⟨sp, mem'⟩, -, h⟩ := Kernel.ok_bind_inv h
    obtain ⟨⟨_, kernel⟩, -, h⟩ := Kernel.ok_bind_inv h
    obtain rfl := Except.ok.inj h
    rfl

/-- The state after a PCB is taken and named, and two pages. -/
def Sys.named (s : Sys σ) (pcb : PcbPtr) (name : List Byte) (kernel : KState) (pages : Memory.Os) :
    Sys σ :=
  { s with
    kernel := kernel
    pages := pages
    names := Function.update s.names pcb (place (s.names pcb) 0 (name ++ [0])) }

theorem processFork_full (h : Kernel.Table s.kernel) (hfree : s.kernel.list .freepcbs = []) :
    processFork E call l s =
      .error (.exitsim (s.kernel.console ++ ["FATAL error: no free processes!\n"])) := by
  unfold processFork
  rw [Kernel.takePcb_empty h hfree]
  rfl

/-- A name of 80 characters and its null character do not fit into the PCB. -/
theorem processFork_named (h : Kernel.Table s.kernel) {rest : List PcbPtr}
    (hfree : s.kernel.list .freepcbs = pcb :: rest) : ∃ K, Taken K pcb ∧
      ∀ call l name, StringAt call.name 0 name → processFork E call l s =
        if name.length < 80 then
          Memory.forkPages s.pages pcb >>= fun pages =>
            loadUser E pcb call l (s.named pcb name K pages)
        else .error .wildAccess := by
  obtain ⟨h', b', e, hT, -, hgone, hstatus⟩ := Kernel.takePcb_spec h hfree
  refine ⟨s.kernel.remake h' b', ⟨hT, hgone, hstatus⟩, fun call l name hname => ?_⟩
  have hlen := hname.le
  unfold processFork
  rw [e, ok_bind]
  simp only
  split_ifs with hshort
  · rw [copyChars_ok hname (by omega) (by omega)]
    rfl
  · rw [copyChars_error hname (by omega) (by omega)]
    rfl

end Load

end DlxOs.Traps
