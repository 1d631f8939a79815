import DlxOs.Files.Descriptors
import DlxOs.Files.Loader
import DlxOs.Kernel.Progress
import DlxOs.Memory.ForkPages

/-!
# Forks of user processes that fail

A fork takes a PCB with its link, two pages and a slot for the file. Which of
them a failed fork gives back depends on the exit of `ProcessGetCodeInfo`, on the
slot and on the table of shared pages.
-/

namespace DlxOs.Files

open FsState
open Kernel Queue

variable {σ : Type} {T : Traps σ} {s t : FsState σ} {x : Slot} {name : List Char}
  {stack : Frame}

/-! ### The slot of the file -/

/-- The slot that `FsOpen` takes. -/
def freeSlot (s : FsState σ) : Option Slot := Fin.find? fun i => (s.openfiles i).flags = 0

theorem freeSlot_flags (h : freeSlot s = some x) : s.flags x = 0 :=
  of_decide_eq_true (Fin.eq_true_of_find?_eq_some h)

/-- The name is one of the DLX file system. -/
def isDlx (name : List Char) : Bool := dstrncmp name "dlx:".toList 4 = 0

/-- What the open trap answers for an object file. -/
def openTrap (T : Traps σ) (s : FsState σ) (name : List Char) : ℤ × σ :=
  T.open name fsModeRead s.simulator

/-- The slot of the file is given back, if a free slot is found at all: the file cannot be opened,
or descriptor 0 is not the one and the header cannot be read. -/
def SlotReturned (T : Traps σ) (s : FsState σ) (name : List Char) : Prop :=
  ∀ x, freeSlot s = some x →
    if isDlx name then x.val ≠ 0
    else (openTrap T s name).1 < 0 ∨
      x.val ≠ 0 ∧ (T.read (openTrap T s name).1 100 (openTrap T s name).2).1.1 ≠ 100

theorem flags_update (f : FsOpenFile) (r : σ) :
    FsState.flags ⟨Function.update s.openfiles x f, r⟩ = Function.update s.flags x f.flags := by
  ext1 y
  rcases eq_or_ne y x with rfl | hy
  · simp [FsState.flags]
  · simp [FsState.flags, hy]

theorem fdValid_update {f : FsOpenFile} (r : σ) (hz : x.val ≠ 0) (hf : f.flags ≠ 0) :
    fdValid ⟨Function.update s.openfiles x f, r⟩ x.val = some x := by
  refine fdValid_eq_some.mpr ⟨rfl, by omega, ?_⟩
  rw [flags_update, Function.update_self]
  exact hf

/-- A read from a slot that was taken for a file. -/
theorem fsRead_update {f : FsOpenFile} (r : σ) (n : ℤ) (hz : x.val ≠ 0) (hf : f.flags ≠ 0) :
    (fsRead T ⟨Function.update s.openfiles x f, r⟩ x.val n).1.1 =
      if f.fs = 0 then (T.read f.u n r).1.1 else 1 := by
  unfold fsRead
  rw [fdValid_update r hz hf]
  simp only [Function.update_self]
  split
  · rfl
  · rfl

theorem fsOpen_full (h : freeSlot s = none) : fsOpen T s name fsModeRead = (-1, s) := by
  unfold fsOpen
  rw [if_neg (by decide), show (Fin.find? fun i => _) = none from h]

theorem fsOpen_dlx (h : freeSlot s = some x) (hname : isDlx name = true) :
    fsOpen T s name fsModeRead = ((x.val : ℤ), s.setFile x ⟨1, fsModeRead, 0⟩) := by
  unfold fsOpen
  rw [if_neg (by decide), show (Fin.find? fun i => _) = some x from h]
  simp only [if_pos (of_decide_eq_true hname)]
  simp [fsOpenIn, fsDlxOpen, setFile, setFlags, show fsModeRead &&& fsModeRw = fsModeRead by decide]

theorem fsOpen_unix (h : freeSlot s = some x) (hname : isDlx name = false) :
    fsOpen T s name fsModeRead =
      if (openTrap T s name).1 < 0 then ((openTrap T s name).1, { s with
        openfiles := Function.update s.openfiles x ⟨0, 0, (openTrap T s name).1⟩
        simulator := (openTrap T s name).2 })
      else ((x.val : ℤ), { s with
        openfiles := Function.update s.openfiles x ⟨0, fsModeRead, (openTrap T s name).1⟩
        simulator := (openTrap T s name).2 }) := by
  unfold fsOpen
  rw [if_neg (by decide), show (Fin.find? fun i => _) = some x from h]
  simp only [if_neg (of_decide_eq_false hname), show fsModeRead &&& fsModeRw = fsModeRead by decide]
  simp only [fsOpenIn, fsUnixOpen, setFile, setFlags, setSimulator, fsFreeEntry]
  simp only [Function.update_self, if_pos, Function.update_idem]
  unfold openTrap
  by_cases ho : (T.open name fsModeRead s.simulator).1 < 0
  · simp only [ho, if_true]
  · simp [ho]

/-- A slot that was taken is given back exactly if the header cannot be read and the descriptor is
not 0. -/
theorem codeInfo_opened (hx : s.flags x = 0) (ho : fsOpen T s name fsModeRead = ((x.val : ℤ), t))
    {m : BitVec 32} (hm : m ≠ 0) (ht : t.flags = Function.update s.flags x m)
    (e : (processGetCodeInfo T stack s name).1.1 = -1) :
    (processGetCodeInfo T stack s name).2.used = s.used ↔
      x.val ≠ 0 ∧ (fsRead T t x.val 100).1.1 ≠ 100 := by
  have hlost : ∀ u : FsState σ, u.flags = Function.update s.flags x m → u.used ≠ s.used := by
    intro u hu he
    have hmem : x ∈ u.used := by
      rw [mem_used, hu, Function.update_self]
      exact hm
    rw [he, mem_used] at hmem
    exact hmem hx
  have hread : (fsRead T t x.val 100).2.flags = Function.update s.flags x m :=
    fsRead_flags.trans ht
  unfold processGetCodeInfo at e ⊢
  rw [ho] at e ⊢
  have hnat : ¬ (x.val : ℤ) < 0 := by omega
  simp only [if_neg hnat] at e ⊢
  by_cases hr : (fsRead T t x.val 100).1.1 = 100
  · rw [if_neg (not_not.mpr hr)] at e ⊢
    refine iff_of_false ?_ fun h => h.2 hr
    split at e
    · exact hlost _ hread
    · simp only at e
      omega
  · rw [if_pos hr]
    simp only
    rcases eq_or_ne x.val 0 with hz | hz
    · have hinvalid : fdValid (fsRead T t x.val 100).2 x.val = none := by
        unfold fdValid
        rw [dif_neg (by omega)]
      rw [fsClose_invalid hinvalid]
      exact iff_of_false (hlost _ hread) fun h => h.1 hz
    · have hvalid : fdValid (fsRead T t x.val 100).2 x.val = some x := by
        refine fdValid_eq_some.mpr ⟨rfl, by omega, ?_⟩
        rw [hread, Function.update_self]
        exact hm
      refine iff_of_true ?_ ⟨hz, hr⟩
      ext y
      rw [mem_used, mem_used, fsClose_flags hvalid, hread, Function.update_idem, ← hx,
        Function.update_eq_self]

/-- A failed `ProcessGetCodeInfo` leaves the slots in use as they were exactly if its slot is
given back. -/
theorem codeInfo_used (e : (processGetCodeInfo T stack s name).1.1 = -1) :
    (processGetCodeInfo T stack s name).2.used = s.used ↔ SlotReturned T s name := by
  cases h : freeSlot s with
  | none =>
      refine iff_of_true ?_ fun x hx => ?_
      · unfold processGetCodeInfo
        rw [fsOpen_full h]
        rfl
      · rw [h] at hx
        cases hx
  | some x =>
      have hx := freeSlot_flags h
      have hmode : fsModeRead ≠ 0 := by decide
      have hone : SlotReturned T s name ↔ if isDlx name then x.val ≠ 0 else _ :=
        ⟨fun hs => hs x h, fun hs y hy => Option.some.inj (h.symm.trans hy) ▸ hs⟩
      rw [hone]
      cases hname : isDlx name with
      | true =>
          have ho := fsOpen_dlx (T := T) h hname
          rw [codeInfo_opened hx ho hmode (flags_update _ _) e, if_pos rfl]
          refine ⟨fun hs => hs.1, fun hz => ⟨hz, ?_⟩⟩
          rw [setFile, fsRead_update _ _ hz hmode, if_neg (show (1 : Fin 2) ≠ 0 by decide)]
          decide
      | false =>
          rw [if_neg (by decide)]
          have ho := fsOpen_unix (T := T) h hname
          by_cases hopen : (openTrap T s name).1 < 0
          · rw [if_pos hopen] at ho
            refine iff_of_true ?_ (.inl hopen)
            unfold processGetCodeInfo
            rw [ho]
            simp only [if_pos hopen]
            ext y
            rw [mem_used, mem_used, flags_update, ← hx, Function.update_eq_self]
          · rw [if_neg hopen] at ho
            rw [codeInfo_opened hx ho hmode (flags_update _ _) e, or_iff_right hopen]
            refine and_congr_right fun hz => ?_
            rw [fsRead_update _ _ hz hmode, if_pos rfl]

/-! ### The fork -/

/-- The state of the modules that a fork takes from. -/
structure Resources (σ : Type) where
  kernel : KState
  memory : Memory.Os
  files : FsState σ

/-- The size of the field `name` of a PCB. -/
def processNameSize : ℕ := 80

/-- `ProcessFork` for a user process. What follows on the loading of the header, that is the bytes
of the program, its arguments and the registers, is left out, since nothing there fails. -/
def processFork (T : Traps σ) (stack : Frame) (s : Resources σ) (name : List Char) :
    Except Halt (ℤ × Resources σ) := do
  let (pcb, kernel) ← takePcb.run s.kernel
  if name.length ≥ processNameSize then throw .wildAccess
  let ((fd, _), files) := processGetCodeInfo T stack s.files name
  let (_, memory) ← Memory.processFork s.memory pcb (some fd)
  if fd < 0 then
    let (_, kernel) ← (processFreeResources pcb).run kernel
    return (-1, ⟨kernel, memory, files⟩)
  else
    let (result, kernel) ← (forkRun pcb processTypeUser).run kernel
    return (result, ⟨kernel, memory, files⟩)

/-- The tables of resources are as before. -/
structure Resources.Untouched (s s' : Resources σ) : Prop where
  pages : s'.memory.freemap.free = s.memory.freemap.free
  nfreepages : s'.memory.freemap.nfreepages = s.memory.freemap.nfreepages
  freepcbs : (s'.kernel.list .freepcbs).toFinset = (s.kernel.list .freepcbs).toFinset
  runQueue : s'.kernel.list .runQueue = s.kernel.list .runQueue
  waitQueue : s'.kernel.list .waitQueue = s.kernel.list .waitQueue
  zombieQueue : s'.kernel.list .zombieQueue = s.kernel.list .zombieQueue
  freeLinks : (s'.kernel.heap.items .freeLinks).length = (s.kernel.heap.items .freeLinks).length
  slots : s'.files.used = s.files.used

variable {K K' : KState} {S S' : Pool KQueue PcbPtr}

/-- The free links are as many as the lengths of the queues leave. -/
theorem freeLinks_length (h : LinkedBy K S) (h' : LinkedBy K' S')
    (hready : ∀ q, K'.ready q = K.ready q) (hlen : ∀ q, (K'.list q).length = (K.list q).length) :
    (K'.heap.items .freeLinks).length = (K.heap.items .freeLinks).length := by
  have attached : ∀ {K : KState} {S : Pool KQueue PcbPtr}, LinkedBy K S →
      (Finset.univ.filter fun l => ∀ q ∈ S.known, l ∉ S.items q).card = 0 := by
    intro K S h
    refine Finset.card_eq_zero.mpr (Finset.filter_eq_empty_iff.mpr fun l _ hl => ?_)
    obtain ⟨q, hq, hm⟩ := h.attached l
    exact hl q hq hm
  have hknown : S'.known = S.known := by
    ext q
    cases q with
    | freeLinks => exact iff_of_true h'.free_known h.free_known
    | named q => rw [h'.known, h.known, hready]
  have hsum : ∑ q ∈ S'.known.erase .freeLinks, (S'.items q).length =
      ∑ q ∈ S.known.erase .freeLinks, (S.items q).length := by
    rw [hknown]
    refine Finset.sum_congr rfl fun q hq => ?_
    obtain ⟨hne, hq⟩ := Finset.mem_erase.mp hq
    cases q with
    | freeLinks => exact absurd rfl hne
    | named q =>
        have hr := (h.known q).mp hq
        have e := congrArg List.length (h.map_object hr)
        have e' := congrArg List.length (h'.map_object ((hready q).trans hr))
        rw [List.length_map, List.length_map] at e e'
        rw [e', hlen, e]
  have e := h.represents.count
  have e' := h'.represents.count
  rw [attached h] at e
  rw [attached h', hsum] at e'
  rw [(h'.represents.shape _ h'.free_known).items_eq, (h.represents.shape _ h.free_known).items_eq]
  omega

/-- A fork that fails puts the kernel's queues back as they were. -/
theorem forked_failed {r : ℤ} (h : Table K) (hf : Forked K r K') (hr : r < 0) :
    (K'.list .freepcbs).toFinset = (K.list .freepcbs).toFinset ∧
      (∀ q, q ≠ .freepcbs → K'.list q = K.list q) ∧
      (K'.heap.items .freeLinks).length = (K.heap.items .freeLinks).length := by
  cases hf with
  | run free e => omega
  | @failed p rest h' b' free e hK table list =>
      rw [← hK] at list table
      have hother : ∀ q, q ≠ .freepcbs → K'.list q = K.list q := fun q hq => by
        rw [list, Function.update_of_ne hq]
      have hfree : K'.list .freepcbs = rest ++ [p] := by
        rw [list, Function.update_self]
      refine ⟨?_, hother, ?_⟩
      · rw [hfree, free, List.toFinset_append, Finset.union_comm]
        simp
      · obtain ⟨S, hS⟩ := h.linked
        obtain ⟨S', hS'⟩ := table.linked
        refine freeLinks_length hS hS' (fun q => ?_) fun q => ?_
        · rw [hK]
          unfold KState.ready
          rw [KState.remake_inuse]
        · rcases eq_or_ne q .freepcbs with rfl | hq
          · rw [hfree, free]
            simp
          · rw [hother q hq]

theorem codeInfo_result (T : Traps σ) (stack : Frame) (s : FsState σ) (name : List Char) :
    (processGetCodeInfo T stack s name).1.1 = -1 ∨
    0 ≤ (processGetCodeInfo T stack s name).1.1 := by
  unfold processGetCodeInfo
  generalize fsOpen T s name fsModeRead = o
  by_cases ho : o.1 < 0
  · exact .inl (by simp only [if_pos ho])
  simp only [if_neg ho]
  by_cases hr : (fsRead T o.2 o.1 100).1.1 = 100
  · rw [if_neg (not_not.mpr hr)]
    split
    · exact .inl rfl
    · exact .inr (not_lt.mp ho)
  · rw [if_pos hr]
    exact .inl rfl

variable {r r' : Resources σ} {rv : ℤ}

/-- What a fork that returns -1 has done in each module. -/
theorem processFork_failed (h : Table r.kernel)
    (e : processFork T stack r name = .ok (-1, r')) :
    Forked r.kernel (-1) r'.kernel ∧ (processGetCodeInfo T stack r.files name).1.1 = -1 ∧
      r'.files = (processGetCodeInfo T stack r.files name).2 ∧
      ∃ pcb rest, r.kernel.list .freepcbs = pcb :: rest ∧
        ∃ rv, Memory.processFork r.memory pcb (some (-1)) = .ok (rv, r'.memory) := by
  unfold processFork at e
  obtain ⟨⟨pcb, K₁⟩, etake, e₁⟩ := ok_bind_inv e
  simp only at e₁
  split at e₁
  · cases e₁
  generalize hinfo : processGetCodeInfo T stack r.files name = info at e₁ ⊢
  obtain ⟨⟨fd, numbers⟩, files⟩ := info
  obtain ⟨⟨rv, memory⟩, ememory, e₂⟩ := ok_bind_inv e₁
  obtain ⟨rest, hfree⟩ : ∃ rest, r.kernel.list .freepcbs = pcb :: rest := by
    cases hfree : r.kernel.list .freepcbs with
    | nil =>
        rw [takePcb_empty h hfree] at etake
        cases etake
    | cons p rest =>
        obtain ⟨h', b', e', -⟩ := takePcb_spec h hfree
        obtain ⟨rfl, -⟩ := Prod.mk.inj (Except.ok.inj (e'.symm.trans etake))
        exact ⟨rest, rfl⟩
  simp only at e₂ ememory
  have hload : ∀ (fd' rv' : ℤ) (K'' : KState),
      (forkLoad ⟨1, 1, some fd'⟩ pcb).run K₁ = .ok (rv', K'') →
      (Kernel.processFork ⟨1, 1, some fd'⟩).run r.kernel = .ok (rv', K'') := fun fd' rv' K'' e' => by
    rw [Kernel.processFork, run_bind_ok etake, e']
  have hresult := codeInfo_result T stack r.files name
  rw [hinfo] at hresult
  split at e₂
  · next hneg =>
      obtain rfl : fd = -1 := by
        rcases hresult with hr | hr
        · exact hr
        · simp only at hr
          omega
      obtain ⟨⟨u, K₂⟩, efree, e₃⟩ := ok_bind_inv e₂
      obtain ⟨-, rfl⟩ := Prod.mk.inj (Except.ok.inj e₃)
      refine ⟨?_, rfl, rfl, pcb, rest, hfree, rv, ememory⟩
      have ekernel := hload (-1) (-1) K₂ (by
        change (processFreeResources pcb >>= fun _ => pure (-1 : ℤ)).run K₁ = _
        rw [run_bind_ok efree]
        rfl)
      rcases processFork_spec h ⟨1, 1, some (-1)⟩ with ⟨t, -, e'⟩ | ⟨-, rv', K'', e', hf⟩
      · cases ekernel.symm.trans e'
      · obtain ⟨rfl, rfl⟩ := Prod.mk.inj (Except.ok.inj (ekernel.symm.trans e'))
        exact hf
  · next hpos =>
      exfalso
      obtain ⟨⟨rv', K₂⟩, erun, e₃⟩ := ok_bind_inv e₂
      obtain ⟨rfl, -⟩ := Prod.mk.inj (Except.ok.inj e₃)
      have ekernel := hload fd (-1) K₂ (by
        rw [forkLoad, if_neg one_ne_zero, if_neg one_ne_zero]
        simp only [if_neg hpos]
        exact erun)
      obtain ⟨K'', e', -⟩ := processFork_runs h hfree (a := ⟨1, 1, some fd⟩) one_ne_zero one_ne_zero
        fun fd' hfd => by
          obtain rfl := Option.some.inj hfd
          omega
      obtain ⟨hrv, -⟩ := Prod.mk.inj (Except.ok.inj (ekernel.symm.trans e'))
      omega

/-- The page that is handed out next is no shared page of a process other than the new one. -/
def PageUnshared (r : Resources σ) : Prop :=
  ∀ pcb rest, r.kernel.list .freepcbs = pcb :: rest → r.memory.NextUnshared pcb

/-- A failed fork leaves the tables of resources as they were exactly if its slot is given back and
its page is no shared page of another process. -/
theorem failed_fork_untouched_iff (h : Table r.kernel)
    (e : processFork T stack r name = .ok (-1, r')) :
    r.Untouched r' ↔ SlotReturned T r.files name ∧ PageUnshared r := by
  obtain ⟨hf, hinfo, hfiles, pcb, rest, hfree, rv, ememory⟩ := processFork_failed h e
  obtain ⟨hpcbs, hqueues, hlinks⟩ := forked_failed h hf (by decide)
  have hslots := codeInfo_used hinfo
  rw [← hfiles] at hslots
  have hpages := Memory.processFork_fails (by decide) ememory
  have hunshared : PageUnshared r ↔ r.memory.NextUnshared pcb := by
    constructor
    · exact fun hp => hp pcb rest hfree
    · intro hp pcb' rest' hfree'
      obtain ⟨rfl, -⟩ := List.cons.inj (hfree.symm.trans hfree')
      exact hp
  rw [hunshared, ← hslots, ← hpages]
  constructor
  · exact fun hu => ⟨hu.slots, hu.pages, hu.nfreepages⟩
  · rintro ⟨hslots, hfree', hn⟩
    exact ⟨hfree', hn, hpcbs, hqueues _ (by decide), hqueues _ (by decide), hqueues _ (by decide),
      hlinks, hslots⟩

/-! ### Two launches -/

/-- A fork whose file cannot be used returns -1, if it gets its PCB and its pages. -/
theorem processFork_returns (h : Table r.kernel) {pcb : PcbPtr} {rest : List PcbPtr}
    (hfree : r.kernel.list .freepcbs = pcb :: rest) (hname : name.length < processNameSize)
    (hinfo : (processGetCodeInfo T stack r.files name).1.1 = -1) {memory : Memory.Os}
    (hm : Memory.processFork r.memory pcb (some (-1)) = .ok (rv, memory)) :
    ∃ r', processFork T stack r name = .ok (-1, r') := by
  obtain ⟨h₁, b₁, e₁, hT, hlist, hgone, -⟩ := takePcb_spec h hfree
  obtain ⟨h₂, b₂, e₂, -⟩ := processFreeResources_spec hT hgone
  generalize hi : processGetCodeInfo T stack r.files name = info at hinfo
  obtain ⟨⟨fd, numbers⟩, files⟩ := info
  obtain rfl : fd = -1 := hinfo
  refine ⟨⟨(r.kernel.remake h₁ b₁).remake h₂ b₂, memory, files⟩, ?_⟩
  unfold processFork
  rw [e₁, ok_bind]
  simp only [if_neg (not_le.mpr hname), hi]
  rw [hm, ok_bind]
  simp only [if_pos (show (-1 : ℤ) < 0 by decide)]
  rw [e₂, ok_bind]
  rfl

/-- The file of `main` is in slot 0. -/
def launchFiles : FsState Unit := ⟨fun x => ⟨0, if x.val = 0 then 1 else 0, 0⟩, ()⟩

/-- Pages 2 and 3 are free, and nothing is shared. -/
def launchMemory : Memory.Os where
  freemap := { Memory.Freemap.static with
    freemapmax := 1
    nfreepages := 2
    freepages := fun i => if i.val = 0 then 0xc else 0 }
  spages _ := ⟨0, 0⟩
  pcbs _ := ⟨0, 0, fun _ => 0, 0⟩
  frees := []

/-- After the start of the kernel a PCB and pages can be had. -/
theorem exists_launch : ∃ (K : KState) (pcb : PcbPtr) (rest : List PcbPtr) (memory : Memory.Os),
    Table K ∧ K.list .freepcbs = pcb :: rest ∧
      Memory.processFork launchMemory pcb (some (-1)) = .ok (-1, memory) := by
  obtain ⟨m, hinit⟩ := exists_init
  obtain ⟨hb, -⟩ := hinit.blank
  cases hfree : m.kernel.list .freepcbs with
  | nil =>
      have hmem := hb.free ⟨0, by decide⟩
      rw [hfree] at hmem
      cases hmem
  | cons pcb rest =>
      obtain ⟨m₁, e₁⟩ : ∃ m₁, Memory.memoryAllocPage launchMemory.freemap = .ok (2, m₁) := ⟨_, rfl⟩
      obtain ⟨m₂, e₂⟩ : ∃ m₂, Memory.memoryAllocPage m₁ = .ok (3, m₂) := by
        obtain ⟨-, rfl⟩ := Prod.mk.inj (Except.ok.inj e₁)
        exact ⟨_, rfl⟩
      obtain ⟨memory, e⟩ := Memory.processFork_returns (s := launchMemory) (p := pcb)
        (show (-1 : ℤ) < 0 by decide) e₁ two_ne_zero e₂ three_ne_zero
      exact ⟨m.kernel, pcb, rest, memory, hinit.inv.table, hfree, e⟩

/-- The traps of a simulator with a file of that size, which has no start line. -/
def oneFile (size : ℕ) : Traps Unit where
  «open» name _ _ := (if name = "a".toList then 3 else -1, ())
  close _ _ := (1, ())
  read _ n _ := ((min size n, (List.replicate size 'x').take n.toNat), ())
  write _ _ _ _ := (-1, ())
  lseek _ _ _ _ := (-1, ())

theorem exists_failed_fork (size : ℕ)
    (hinfo : (processGetCodeInfo (oneFile size) ⟨0, []⟩ launchFiles "a".toList).1.1 = -1) :
    ∃ r r' : Resources Unit, Table r.kernel ∧ r.files = launchFiles ∧ r.memory = launchMemory ∧
      processFork (oneFile size) ⟨0, []⟩ r "a".toList = .ok (-1, r') := by
  obtain ⟨K, pcb, rest, memory, hK, hfree, hm⟩ := exists_launch
  obtain ⟨r', e⟩ := processFork_returns (r := ⟨K, launchMemory, launchFiles⟩) hK hfree
    (by decide) hinfo hm
  exact ⟨_, r', hK, rfl, rfl, e⟩

/-- The launch of a file of ten characters fails and leaves no trace. -/
theorem failed_fork_untouched_short : ∃ r r' : Resources Unit,
    processFork (oneFile 10) ⟨0, []⟩ r "a".toList = .ok (-1, r') ∧ r.Untouched r' := by
  obtain ⟨r, r', hK, hfiles, hmemory, e⟩ := exists_failed_fork 10 (by decide)
  refine ⟨r, r', e, (failed_fork_untouched_iff hK e).mpr ⟨?_, ?_⟩⟩
  · rw [hfiles]
    intro x hx
    rw [if_neg (by decide)]
    refine .inr ⟨fun hz => ?_, by decide⟩
    have hflags := freeSlot_flags hx
    simp [FsState.flags, launchFiles, hz] at hflags
  · rw [PageUnshared, hmemory]
    intro pcb rest _ page m _
    cases hf : launchMemory.findEntry page with
    | none => exact (Memory.Os.sharers_of_none hf).subset.trans (Finset.empty_subset _)
    | some i =>
        rw [Memory.Os.sharers_of_some hf]
        exact Memory.sharersOf_zero.subset.trans (Finset.empty_subset _)

/-- The launch of a file of a hundred characters without a start line keeps its slot. -/
theorem failed_fork_keeps_slot : ¬ ∀ (T : Traps Unit) (stack : Frame) (r r' : Resources Unit)
    (name : List Char), Table r.kernel → processFork T stack r name = .ok (-1, r') →
    r.Untouched r' := by
  intro hall
  obtain ⟨r, r', hK, hfiles, -, e⟩ := exists_failed_fork 100 (by decide)
  have hslots := (hall _ _ r r' _ hK e).slots
  obtain ⟨-, hinfo, hfiles', -⟩ := processFork_failed hK e
  rw [hfiles', hfiles] at hslots
  have hmem : (⟨1, by decide⟩ : Slot) ∈
      (processGetCodeInfo (oneFile 100) ⟨0, []⟩ launchFiles "a".toList).2.used := by
    decide
  rw [hslots] at hmem
  revert hmem
  decide

end DlxOs.Files
