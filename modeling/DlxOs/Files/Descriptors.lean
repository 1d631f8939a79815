import DlxOs.Files.FileSystem
import DlxOs.Library.Transition

/-!
# Descriptors of open files

A run opens, closes, reads, writes and seeks, whatever the traps of the
simulator answer. The descriptor of a file is the number of its slot, and every
descriptor but 0 can be used until it is closed. Slot 0 is the first one that is
handed out, and `FdValid` refuses it.
-/

namespace DlxOs.Files

open Transition

variable {σ : Type} {T : Traps σ} {s s' : FsState σ} {x : Slot} {d r : ℤ} {name : List Char}
  {mode : BitVec 32}

namespace FsState

def flags (s : FsState σ) (x : Slot) : BitVec 32 := (s.openfiles x).flags

/-- The slots in use. -/
def used (s : FsState σ) : Finset Slot := Finset.univ.filter fun x => s.flags x ≠ 0

@[simp] theorem mem_used : x ∈ s.used ↔ s.flags x ≠ 0 := by
  simp [used]

@[simp] theorem flags_setFlags {f : BitVec 32} :
    (s.setFlags x f).flags = Function.update s.flags x f := by
  funext y
  rcases eq_or_ne y x with rfl | hy
  · simp [flags, setFlags, setFile]
  · simp [flags, setFlags, setFile, hy]

theorem flags_setFile {f : FsOpenFile} (h : f.flags = s.flags x) : (s.setFile x f).flags = s.flags := by
  funext y
  rcases eq_or_ne y x with rfl | hy
  · simpa [flags, setFile] using h
  · simp [flags, setFile, hy]

@[simp] theorem flags_setSimulator {α : Type} {a : α × σ} : (s.setSimulator a).2.flags = s.flags :=
  rfl

end FsState

open FsState

theorem fsOpenIn_flags : (fsOpenIn T s x name mode).2.flags = s.flags := by
  unfold fsOpenIn
  split
  · unfold fsUnixOpen
    exact flags_setFile rfl
  · exact flags_setFile rfl

/-- `FsOpen` takes no slot and fails, or it takes a free slot and returns its number. -/
theorem fsOpen_cases (T : Traps σ) (s : FsState σ) (name : List Char) (mode : BitVec 32) :
    ((fsOpen T s name mode).1 < 0 ∧ (fsOpen T s name mode).2.flags = s.flags) ∨
    ∃ i m, s.flags i = 0 ∧ m ≠ 0 ∧ (fsOpen T s name mode).1 = i.val ∧
      (fsOpen T s name mode).2.flags = Function.update s.flags i m := by
  unfold fsOpen
  by_cases hmode : mode &&& fsModeRw = 0
  · rw [if_pos hmode]
    exact .inl ⟨show (-1 : ℤ) < 0 by decide, rfl⟩
  rw [if_neg hmode]
  cases hfind : Fin.find? fun i => decide ((s.openfiles i).flags = 0) with
  | none => exact .inl ⟨show (-1 : ℤ) < 0 by decide, rfl⟩
  | some i =>
      have hfree : s.flags i = 0 := of_decide_eq_true (Fin.eq_true_of_find?_eq_some hfind)
      simp only
      generalize (if dstrncmp name "dlx:".toList 4 = 0 then 1 else 0 : Fin 2) = fs
      split
      · rename_i hr
        refine .inl ⟨hr, ?_⟩
        rw [fsFreeEntry, flags_setFlags, fsOpenIn_flags, flags_setFile, flags_setFlags,
          Function.update_idem, ← hfree, Function.update_eq_self]
        rfl
      · refine .inr ⟨i, _, hfree, hmode, rfl, ?_⟩
        rw [fsOpenIn_flags, flags_setFile, flags_setFlags]
        rfl

theorem fdValid_eq_some : fdValid s d = some x ↔ d = x.val ∧ 0 < d ∧ s.flags x ≠ 0 := by
  unfold fdValid
  constructor
  · intro h
    split at h
    · rename_i hd
      simp only at h
      split at h
      · rename_i hf
        obtain rfl := Option.some.inj h
        exact ⟨by simp; omega, hd.1, hf⟩
      · cases h
    · cases h
  · rintro ⟨rfl, hpos, hf⟩
    have hlt : (x.val : ℤ) < fsMaxOpenFiles := by exact_mod_cast x.isLt
    rw [dif_pos ⟨hpos, hlt⟩]
    exact if_pos hf

/-- `FsClose` frees the slot of a valid descriptor. -/
theorem fsClose_flags (h : fdValid s d = some x) :
    (fsClose T s d).2.flags = Function.update s.flags x 0 := by
  unfold fsClose
  rw [h]
  simp only [fsFreeEntry, flags_setFlags]
  split
  · rfl
  · rfl

theorem fsClose_invalid (h : fdValid s d = none) : fsClose T s d = (-1, s) := by
  unfold fsClose
  rw [h]

theorem fsRead_flags {n : ℤ} : (fsRead T s d n).2.flags = s.flags := by
  unfold fsRead
  cases fdValid s d with
  | none => rfl
  | some x =>
      simp only
      split <;> rfl

theorem fsWrite_flags {buf : List Char} {n : ℤ} : (fsWrite T s d buf n).2.flags = s.flags := by
  unfold fsWrite
  cases fdValid s d with
  | none => rfl
  | some x =>
      simp only
      split <;> rfl

theorem fsSeek_flags {offset whence : ℤ} : (fsSeek T s d offset whence).2.flags = s.flags := by
  unfold fsSeek
  cases fdValid s d with
  | none => rfl
  | some x =>
      simp only
      split <;> rfl

inductive FsEvent
  | «open» (name : List Char) (mode : BitVec 32) (r : ℤ)
  | close (fd r : ℤ)
  | read (fd n : ℤ) (r : ℤ × List Char)
  | write (fd : ℤ) (buf : List Char) (n r : ℤ)
  | seek (fd offset whence r : ℤ)

/-- The runs of the file system from `FsModuleInit` on. -/
def fsSystem (T : Traps σ) : System (FsState σ) FsEvent where
  Init s := ∃ s₀, s = fsModuleInit s₀
  Step s e s' := match e with
    | .open name mode r => fsOpen T s name mode = (r, s')
    | .close fd r => fsClose T s fd = (r, s')
    | .read fd n r => fsRead T s fd n = (r, s')
    | .write fd buf n r => fsWrite T s fd buf n = (r, s')
    | .seek fd offset whence r => fsSeek T s fd offset whence = (r, s')

/-- What the callers know of the descriptors. -/
structure Ledger where
  /-- The open ones. -/
  opened : Finset ℤ
  /-- Those that `FsOpen` has returned, in order. -/
  issued : List ℤ
  /-- The open ones on which `FsClose` was called, in order. -/
  closed : List ℤ

def Ledger.after (l : Ledger) : FsEvent → Ledger
  | .open _ _ r => if 0 ≤ r then ⟨insert r l.opened, l.issued ++ [r], l.closed⟩ else l
  | .close fd _ => if fd ∈ l.opened then ⟨l.opened.erase fd, l.issued, l.closed ++ [fd]⟩ else l
  | _ => l

/-- The file system beside the ledger of its callers. -/
def ledgerSystem (T : Traps σ) : System (FsState σ × Ledger) FsEvent :=
  (fsSystem T).observe ⟨∅, [], []⟩ fun l _ e _ => l.after e

/-- A descriptor is accepted as valid, and closing it frees its slot. -/
structure Serves (T : Traps σ) (s : FsState σ) (d : ℤ) : Prop where
  valid : fdValid s d ≠ none
  freed : ∃ x : Slot, d = x.val ∧ x ∉ (fsClose T s d).2.used

/-- A new descriptor is none of the open ones. -/
def Fresh (T : Traps σ) (s : FsState σ) (l : Ledger) : Prop :=
  ∀ name mode, 0 ≤ (fsOpen T s name mode).1 → (fsOpen T s name mode).1 ∉ l.opened

/-- The slots in use are as many as the opens without the closes. -/
def Counted (s : FsState σ) (l : Ledger) : Prop :=
  s.used.card + l.closed.length = l.issued.length

/-- Descriptors can be used and are recycled. -/
structure Faithful (T : Traps σ) (s : FsState σ) (l : Ledger) : Prop where
  fresh : Fresh T s l
  serves : ∀ d ∈ l.opened, Serves T s d
  counted : Counted s l

/-- What the slots have to do with the ledger. -/
structure Kept (s : FsState σ) (l : Ledger) : Prop where
  used : ∀ x : Slot, x ∈ s.used ↔ (x.val : ℤ) ∈ l.opened ∨ x.val = 0 ∧ 0 ∈ l.closed
  slots : ∀ d ∈ l.opened, ∃ x : Slot, d = x.val
  lost : 0 ∈ l.closed → 0 ∉ l.opened
  counted : l.opened.card + l.closed.length = l.issued.length

namespace Kept

variable {l : Ledger}

theorem congr (h : Kept s l) (hf : s'.flags = s.flags) : Kept s' l := by
  have hused : s'.used = s.used := by
    ext x
    rw [mem_used, mem_used, hf]
  exact ⟨hused ▸ h.used, h.slots, h.lost, h.counted⟩

/-- A slot that was free becomes the one of a new descriptor. -/
theorem opens (h : Kept s l) {m : BitVec 32} (hx : s.flags x = 0) (hm : m ≠ 0)
    (hf : s'.flags = Function.update s.flags x m) :
    (x.val : ℤ) ∉ l.opened ∧
      Kept s' ⟨insert (x.val : ℤ) l.opened, l.issued ++ [(x.val : ℤ)], l.closed⟩ := by
  have hfree : ¬ ((x.val : ℤ) ∈ l.opened ∨ x.val = 0 ∧ 0 ∈ l.closed) := by
    rw [← h.used, mem_used]
    exact not_not.mpr hx
  obtain ⟨hnew, hzero⟩ := not_or.mp hfree
  refine ⟨hnew, fun y => ?_, fun d hd => ?_, fun hc hz => ?_, ?_⟩
  · rw [mem_used, hf]
    rcases eq_or_ne y x with rfl | hy
    · rw [Function.update_self]
      exact iff_of_true hm (.inl (Finset.mem_insert_self _ _))
    · have hval : (y.val : ℤ) ≠ x.val := fun e => hy (Fin.ext (by exact_mod_cast e))
      rw [Function.update_of_ne hy, ← mem_used, h.used, Finset.mem_insert, or_iff_right hval]
  · rcases Finset.mem_insert.mp hd with rfl | hd
    · exact ⟨x, rfl⟩
    · exact h.slots d hd
  · rcases Finset.mem_insert.mp hz with hz | hz
    · exact hzero ⟨by omega, hc⟩
    · exact h.lost hc hz
  · rw [Finset.card_insert_of_notMem hnew, List.length_append, ← h.counted]
    simp only [List.length_cons, List.length_nil]
    omega

/-- An open descriptor other than 0 leaves its slot free when it is closed. -/
theorem closes (h : Kept s l) (hx : (x.val : ℤ) ∈ l.opened) (hne : x.val ≠ 0)
    (hf : s'.flags = Function.update s.flags x 0) :
    Kept s' ⟨l.opened.erase (x.val : ℤ), l.issued, l.closed ++ [(x.val : ℤ)]⟩ := by
  have hclosed : 0 ∈ l.closed ++ [(x.val : ℤ)] ↔ 0 ∈ l.closed := by
    simp [eq_comm, hne]
  refine ⟨fun y => ?_, fun d hd => h.slots d (Finset.mem_of_mem_erase hd), fun hc hz => ?_, ?_⟩
  · rw [mem_used, hf, hclosed]
    rcases eq_or_ne y x with rfl | hy
    · simp [hne]
    · have hval : (y.val : ℤ) ≠ x.val := fun e => hy (Fin.ext (by exact_mod_cast e))
      rw [Function.update_of_ne hy, ← mem_used, h.used, Finset.mem_erase, and_iff_right hval]
  · exact h.lost (hclosed.mp hc) (Finset.mem_of_mem_erase hz)
  · rw [Finset.card_erase_of_mem hx, List.length_append, ← h.counted]
    have := Finset.card_pos.mpr ⟨_, hx⟩
    simp only [List.length_cons, List.length_nil]
    omega

/-- Descriptor 0 keeps its slot in use when it is closed. -/
theorem loses (h : Kept s l) (hz : 0 ∈ l.opened) :
    Kept s ⟨l.opened.erase 0, l.issued, l.closed ++ [0]⟩ := by
  refine ⟨fun y => ?_, fun d hd => h.slots d (Finset.mem_of_mem_erase hd),
    fun _ => Finset.notMem_erase 0 _, ?_⟩
  · rw [h.used, Finset.mem_erase]
    by_cases hy : y.val = 0
    · simp [hy, hz]
    · simp [hy]
  · rw [Finset.card_erase_of_mem hz, List.length_append, ← h.counted]
    have := Finset.card_pos.mpr ⟨_, hz⟩
    simp only [List.length_cons, List.length_nil]
    omega

/-- The slots in use are those of the open descriptors, and slot 0 when it was closed. -/
theorem card_used (h : Kept s l) :
    s.used.card = l.opened.card + if 0 ∈ l.closed then 1 else 0 := by
  have hinj : Function.Injective fun x : Slot => (x.val : ℤ) := fun x y e =>
    Fin.ext (Int.ofNat.inj e)
  have hzero : ((⟨0, by decide⟩ : Slot).val : ℤ) = 0 := rfl
  rw [← Finset.card_image_of_injective s.used hinj]
  split
  · rename_i hc
    rw [← Finset.card_insert_of_notMem (h.lost hc)]
    congr 1
    ext d
    rw [Finset.mem_image, Finset.mem_insert]
    constructor
    · rintro ⟨x, hx, rfl⟩
      rcases (h.used x).mp hx with ho | ⟨hz, -⟩
      · exact .inr ho
      · exact .inl (by simp [hz])
    · rintro (rfl | hd)
      · exact ⟨_, (h.used ⟨0, by decide⟩).mpr (.inr ⟨rfl, hc⟩), hzero⟩
      · obtain ⟨x, rfl⟩ := h.slots d hd
        exact ⟨x, (h.used x).mpr (.inl hd), rfl⟩
  · rename_i hc
    congr 1
    ext d
    rw [Finset.mem_image]
    constructor
    · rintro ⟨x, hx, rfl⟩
      exact ((h.used x).mp hx).resolve_right fun hz => hc hz.2
    · intro hd
      obtain ⟨x, rfl⟩ := h.slots d hd
      exact ⟨x, (h.used x).mpr (.inl hd), rfl⟩

/-- The open descriptors but 0 are accepted, and closing one frees its slot. -/
theorem serves_iff (h : Kept s l) (hd : d ∈ l.opened) : Serves T s d ↔ d ≠ 0 := by
  obtain ⟨x, rfl⟩ := h.slots d hd
  constructor
  · rintro ⟨hvalid, -⟩ hz
    obtain ⟨y, hy⟩ := Option.ne_none_iff_exists'.mp hvalid
    have := (fdValid_eq_some.mp hy).2.1
    omega
  · intro hne
    have hused := mem_used.mp ((h.used x).mpr (.inl hd))
    have hvalid : fdValid s x.val = some x := fdValid_eq_some.mpr ⟨rfl, by omega, hused⟩
    refine ⟨by simp [hvalid], x, rfl, ?_⟩
    rw [mem_used, fsClose_flags hvalid, Function.update_self]
    exact not_not.mpr rfl

theorem fresh (h : Kept s l) : Fresh T s l := by
  intro name mode hr
  rcases fsOpen_cases T s name mode with ⟨hneg, -⟩ | ⟨i, m, hfree, hm, hi, hf⟩
  · omega
  · rw [hi]
    exact (h.opens hfree hm hf).1

theorem counted_iff (h : Kept s l) : Counted s l ↔ 0 ∉ l.closed := by
  unfold Counted
  rw [h.card_used, ← h.counted]
  split
  · rename_i hc
    exact iff_of_false (by omega) (not_not.mpr hc)
  · rename_i hc
    exact iff_of_true (by omega) hc

/-- Every call keeps the ledger. -/
theorem step (h : Kept s l) {e : FsEvent} (hs : (fsSystem T).Step s e s') :
    Kept s' (l.after e) := by
  cases e with
  | «open» name mode r =>
      have hs : fsOpen T s name mode = (r, s') := hs
      obtain rfl : r = (fsOpen T s name mode).1 := (congrArg Prod.fst hs).symm
      obtain rfl : s' = (fsOpen T s name mode).2 := (congrArg Prod.snd hs).symm
      rcases fsOpen_cases T s name mode with ⟨hneg, hf⟩ | ⟨i, m, hfree, hm, hi, hf⟩
      · rw [Ledger.after, if_neg (not_le.mpr hneg)]
        exact h.congr hf
      · rw [Ledger.after, hi, if_pos (by omega)]
        exact (h.opens hfree hm hf).2
  | close fd r =>
      have hs : fsClose T s fd = (r, s') := hs
      obtain rfl : s' = (fsClose T s fd).2 := (congrArg Prod.snd hs).symm
      by_cases ho : fd ∈ l.opened
      · rw [Ledger.after, if_pos ho]
        obtain ⟨x, rfl⟩ := h.slots fd ho
        have hused := mem_used.mp ((h.used x).mpr (.inl ho))
        by_cases hz : x.val = 0
        · have hinvalid : fdValid s x.val = none := by
            by_contra hv
            obtain ⟨y, hy⟩ := Option.ne_none_iff_exists'.mp hv
            have := (fdValid_eq_some.mp hy).2.1
            omega
          rw [fsClose_invalid hinvalid]
          have hzero : (x.val : ℤ) = 0 := by omega
          rw [hzero] at ho ⊢
          exact h.loses ho
        · exact h.closes ho hz (fsClose_flags (fdValid_eq_some.mpr ⟨rfl, by omega, hused⟩))
      · rw [Ledger.after, if_neg ho]
        cases hv : fdValid s fd with
        | none =>
            rw [fsClose_invalid hv]
            exact h
        | some x =>
            obtain ⟨rfl, hpos, hused⟩ := fdValid_eq_some.mp hv
            rcases (h.used x).mp (mem_used.mpr hused) with hm | ⟨hz, -⟩
            · exact absurd hm ho
            · omega
  | read fd n r => exact h.congr (congrArg (fun o => o.2.flags) hs ▸ fsRead_flags)
  | write fd buf n r => exact h.congr (congrArg (fun o => o.2.flags) hs ▸ fsWrite_flags)
  | seek fd offset whence r => exact h.congr (congrArg (fun o => o.2.flags) hs ▸ fsSeek_flags)

/-- `FsModuleInit` leaves no slot in use. -/
theorem init (s : FsState σ) : Kept (fsModuleInit s) ⟨∅, [], []⟩ where
  used x := by simp [fsModuleInit, FsState.flags]
  slots d hd := absurd hd (Finset.notMem_empty d)
  lost h := absurd h (List.not_mem_nil)
  counted := rfl

end Kept

variable {l : Ledger}

theorem reachable_kept (h : (ledgerSystem T).Reachable (s, l)) : Kept s l := by
  refine h.invariant (P := fun s => Kept s.1 s.2) ?_ ?_
  · rintro ⟨s, l⟩ ⟨⟨s₀, rfl⟩, rfl⟩
    exact .init s₀
  · rintro s e s' - h ⟨hs, hl⟩
    rw [hl]
    exact h.step hs

/-- A new descriptor is none of the open ones, an open descriptor can be used and recycled unless
it is 0, and the slots are counted right until descriptor 0 is closed. All of it holds exactly
while slot 0 is free. -/
theorem descriptors_faithful_iff (h : (ledgerSystem T).Reachable (s, l)) :
    Fresh T s l ∧ (∀ d ∈ l.opened, Serves T s d ↔ d ≠ 0) ∧ (Counted s l ↔ 0 ∉ l.closed) ∧
      (Faithful T s l ↔ s.flags ⟨0, by decide⟩ = 0) := by
  have hk := reachable_kept h
  have hzero : s.flags ⟨0, by decide⟩ ≠ 0 ↔ 0 ∈ l.opened ∨ 0 ∈ l.closed := by
    rw [← mem_used, hk.used]
    simp
  refine ⟨hk.fresh, fun d => hk.serves_iff, hk.counted_iff, ?_⟩
  constructor
  · intro hf
    by_contra hne
    rcases hzero.mp hne with ho | hc
    · exact (hk.serves_iff ho).mp (hf.serves 0 ho) rfl
    · exact hk.counted_iff.mp hf.counted hc
  · intro hz
    obtain ⟨ho, hc⟩ := not_or.mp fun hor => hzero.mpr hor hz
    refine ⟨hk.fresh, fun d hd => (hk.serves_iff hd).mpr ?_, hk.counted_iff.mpr hc⟩
    rintro rfl
    exact ho hd

/-- Traps that always succeed. -/
def readyTraps : Traps Unit where
  «open» _ _ u := (3, u)
  close _ u := (0, u)
  read _ _ u := ((0, []), u)
  write _ _ n u := (n, u)
  lseek _ offset _ u := (offset, u)

def noFiles : FsState Unit := fsModuleInit ⟨fun _ => ⟨0, 0, 0⟩, ()⟩

/-- The main program opens its file before anybody else. -/
def vmOpened : FsState Unit := (fsOpen readyTraps noFiles "vm".toList fsModeWrite).2

theorem vm_opened : (ledgerSystem readyTraps).Reachable (vmOpened, ⟨{0}, [0], []⟩) := by
  have hinit : (ledgerSystem readyTraps).Reachable (noFiles, ⟨∅, [], []⟩) := .init ⟨⟨_, rfl⟩, rfl⟩
  refine hinit.step (e := .open "vm".toList fsModeWrite 0) ⟨?_, rfl⟩
  have hr : (fsOpen readyTraps noFiles "vm".toList fsModeWrite).1 = 0 := by decide
  exact Prod.ext hr rfl

/-- After the second open, descriptor 1 can be used and descriptor 0 cannot. -/
theorem descriptors_faithful_two : ∃ (s : FsState Unit) (l : Ledger),
    (ledgerSystem readyTraps).Reachable (s, l) ∧ l.opened = {0, 1} ∧
      Serves readyTraps s 1 ∧ ¬ Serves readyTraps s 0 := by
  have hr : (fsOpen readyTraps vmOpened "prog".toList fsModeRead).1 = 1 := by decide
  have hstep : (fsOpen readyTraps vmOpened "prog".toList fsModeRead) =
      (1, (fsOpen readyTraps vmOpened "prog".toList fsModeRead).2) := Prod.ext hr rfl
  have h : (ledgerSystem readyTraps).Reachable
      ((fsOpen readyTraps vmOpened "prog".toList fsModeRead).2, ⟨{1, 0}, [0, 1], []⟩) := by
    refine vm_opened.step (e := .open "prog".toList fsModeRead 1) ⟨?_, rfl⟩
    exact hstep
  obtain ⟨-, hserves, -⟩ := descriptors_faithful_iff h
  exact ⟨_, _, h, Finset.pair_comm 1 0, (hserves 1 (by simp)).mpr one_ne_zero,
    fun hz => (hserves 0 (by simp)).mp hz rfl⟩

/-- Descriptor 0, the first one that is handed out, is refused by every call. -/
theorem descriptor_zero_refused : ¬ ∀ (s : FsState Unit) (l : Ledger),
    (ledgerSystem readyTraps).Reachable (s, l) → Faithful readyTraps s l := by
  intro hall
  have hzero : (0 : ℤ) ∈ ({0} : Finset ℤ) := Finset.mem_singleton_self 0
  exact ((reachable_kept vm_opened).serves_iff hzero).mp ((hall _ _ vm_opened).serves 0 hzero) rfl

end DlxOs.Files
