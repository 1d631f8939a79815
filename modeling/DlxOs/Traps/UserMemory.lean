import DlxOs.Traps.Strings
import DlxOs.Memory.Copies

/-!
# The memory of a process

A process reads and writes physical memory through its page table. The copies
of `os/memory.c`, which go page by page, read and write the same bytes as
copies that go byte by byte through the page table.
-/

namespace DlxOs.Traps

open Kernel (Halt)
open Kernel (ok_bind)
open Memory (Bytes memoryPageSize)

variable {a u src frame : Word} {bs bs' : List Byte} {pcb : Memory.PCB} {mem : Bytes} {n k : ℕ}
  {space space' : UserSpace} {c : Memory.Copied}

/-- What the addresses of a process read as. -/
def readUser (pcb : Memory.PCB) (mem : Bytes) : UserSpace := fun a =>
  match Memory.memoryTranslateUserToSystem pcb a with
  | .ok v => if v = 0 then none else some (mem v)
  | .error _ => none

/-- `MemoryCopySystemToUser` of these bytes stops at the first address that is not mapped. -/
def memoryCopySystemToUser (pcb : Memory.PCB) : List Byte → Word → Bytes → Except Halt Bytes
  | [], _, mem => .ok mem
  | b :: bs, u, mem => do
    let a ← Memory.memoryTranslateUserToSystem pcb u
    if a = 0 then return mem
    else memoryCopySystemToUser pcb bs (u + 1) (Function.update mem a b)

/-! ### The page of the process -/

/-- The process has one page, at this address. -/
structure OnePage (pcb : Memory.PCB) (frame : Word) : Prop where
  npages : pcb.npages = 1
  entry : ∃ page, page ≠ 0 ∧ page < memoryPageSize ∧ frame = BitVec.ofNat 32 (page * memoryPageSize) ∧
    pcb.pagetable ⟨0, by decide⟩ = Memory.memorySetupPte (BitVec.ofNat 32 page)

theorem OnePage.mapped (h : OnePage pcb frame) : pcb.Mapped where
  one_le := h.npages.ge
  le_max := h.npages.le.trans (by decide)
  setup := by
    intro i hi
    rw [h.npages] at hi
    obtain ⟨page, -, -, -, he⟩ := h.entry
    rw [show i = ⟨0, by decide⟩ from Fin.ext (by simp; omega)]
    exact ⟨_, he⟩

theorem OnePage.translate (h : OnePage pcb frame) (hu : u.toNat < memoryPageSize) :
    Memory.memoryTranslateUserToSystem pcb u = .ok (frame + u) ∧ frame + u ≠ 0 := by
  obtain ⟨page, hne, hlt, rfl, he⟩ := h.entry
  have hzero : u.toNat / memoryPageSize = 0 := Nat.div_eq_of_lt hu
  have hle : ((u.toNat / memoryPageSize : ℕ) : ℤ) ≤ pcb.npages := by
    rw [hzero, h.npages]
    decide
  have hnamed : pcb.named u.toNat = BitVec.ofNat 32 (page * memoryPageSize) + u := by
    rw [Memory.PCB.named_own (i := ⟨0, by decide⟩) hzero he, Nat.mod_eq_of_lt hu,
      BitVec.ofNat_toNat, BitVec.setWidth_eq, BitVec.ofNat_mul]
  refine ⟨hnamed ▸ Memory.translate_named h.mapped hle, ?_⟩
  unfold memoryPageSize at *
  bv_omega

theorem readUser_page (h : OnePage pcb frame) (hu : u.toNat < memoryPageSize) :
    readUser pcb mem u = some (mem (frame + u)) := by
  obtain ⟨ht, hne⟩ := h.translate hu
  unfold readUser
  rw [ht]
  exact if_neg hne

/-- Bytes whose addresses are named in order are copied as they are. -/
theorem copy_named (mem : Bytes) (bs bs' : List Byte) {u v : Word} (h : ∀ j < bs.length,
      Memory.memoryTranslateUserToSystem pcb (u + BitVec.ofNat 32 j) =
        .ok (v + BitVec.ofNat 32 j) ∧ v + BitVec.ofNat 32 j ≠ 0) :
    memoryCopySystemToUser pcb (bs ++ bs') u mem =
      memoryCopySystemToUser pcb bs' (u + BitVec.ofNat 32 bs.length) (poke mem v bs) := by
  induction bs generalizing u v mem with
  | nil => simp [poke]
  | cons b bs ih =>
      obtain ⟨ht, hne⟩ := h 0 (by simp)
      rw [BitVec.add_zero, BitVec.add_zero] at ht
      rw [BitVec.add_zero] at hne
      rw [List.cons_append, memoryCopySystemToUser, ht, ok_bind, if_neg hne, ih (v := v + 1)]
      · rw [addr_succ, poke, List.length_cons]
      · intro j hj
        rw [addr_succ, addr_succ]
        exact h (j + 1) (by simpa using hj)

theorem copy_page (h : OnePage pcb frame) (hu : u.toNat + bs.length ≤ memoryPageSize) :
    memoryCopySystemToUser pcb bs u mem = .ok (poke mem (frame + u) bs) := by
  have hall : ∀ j < bs.length, Memory.memoryTranslateUserToSystem pcb (u + BitVec.ofNat 32 j) =
      .ok (frame + u + BitVec.ofNat 32 j) ∧ frame + u + BitVec.ofNat 32 j ≠ 0 := by
    intro j hj
    have hin : (u + BitVec.ofNat 32 j).toNat < memoryPageSize := by
      unfold memoryPageSize at hu ⊢
      bv_omega
    rw [BitVec.add_assoc]
    exact h.translate hin
  have hcopy := copy_named mem bs [] hall
  rw [List.append_nil] at hcopy
  exact hcopy

/-- A copy to a process ends, at the latest where nothing is mapped. -/
theorem copy_ends (h : pcb.Mapped) (bs : List Byte) (u : Word) (mem : Bytes) :
    ∃ mem', memoryCopySystemToUser pcb bs u mem = .ok mem' := by
  induction bs generalizing u mem with
  | nil => exact ⟨mem, rfl⟩
  | cons b bs ih =>
      obtain ⟨a, ha⟩ : ∃ a, Memory.memoryTranslateUserToSystem pcb u = .ok a := by
        rcases lt_or_ge pcb.npages (u.toNat / memoryPageSize : ℕ) with hu | hu
        · exact ⟨0, Memory.translate_beyond hu⟩
        · exact ⟨_, Memory.translate_named h hu⟩
      unfold memoryCopySystemToUser
      rw [ha, ok_bind]
      split
      · exact ⟨mem, rfl⟩
      · exact ih _ _

/-- The process reads what lies in its page. -/
theorem reads_page (h : OnePage pcb frame) (hu : u.toNat + bs.length ≤ memoryPageSize)
    (hm : Reads (identity mem) (frame + u) bs) : Reads (readUser pcb mem) u bs := by
  rw [reads_identity] at hm
  rw [reads_iff]
  intro m hlt
  have hin : (u + BitVec.ofNat 32 m).toNat < memoryPageSize := by
    unfold memoryPageSize at hu ⊢
    bv_omega
  rw [readUser_page h hin, ← BitVec.add_assoc, hm m hlt]

theorem reads_poke (hlen : bs.length ≤ 2 ^ 32) : Reads (identity (poke mem a bs)) a bs :=
  reads_identity.mpr fun _ hm => poke_at hm hlen

/-- What is written in front of bytes leaves them as they are. -/
theorem reads_poke_before (h : Reads (identity mem) a bs)
    (hu : u + BitVec.ofNat 32 bs'.length = a) (hlen : bs.length + bs'.length ≤ 2 ^ 32) :
    Reads (identity (poke mem u bs')) a bs := by
  rw [reads_identity] at h ⊢
  intro m hm
  rw [poke_before, h m hm]
  intro k hk e
  rw [← hu] at e
  bv_omega

/-! ### The copies of `os/memory.c` -/

theorem readable_of_reads (h : Reads space a bs) :
    readable space a (bs.length + n) =
      bs ++ readable space (a + BitVec.ofNat 32 bs.length) n := by
  induction bs generalizing a with
  | nil => simp
  | cons b bs ih =>
      rw [List.length_cons, Nat.add_right_comm, readable, h.1]
      simp only [List.cons_append]
      rw [ih h.2, addr_succ]

theorem readable_congr (h : ∀ m < n, space' (a + BitVec.ofNat 32 m) = space (a + BitVec.ofNat 32 m)) :
    readable space' a n = readable space a n := by
  induction n generalizing a with
  | zero => rfl
  | succ n ih =>
      have hzero := h 0 (Nat.zero_lt_succ n)
      rw [BitVec.add_zero] at hzero
      unfold readable
      rw [hzero, ih]
      intro m hm
      rw [addr_succ]
      exact h (m + 1) (Nat.succ_lt_succ hm)

theorem poke_append : poke (poke mem a bs) (a + BitVec.ofNat 32 bs.length) bs' =
    poke mem a (bs ++ bs') := by
  induction bs generalizing mem a with
  | nil => simp [poke]
  | cons b bs ih =>
      rw [List.cons_append, poke, poke, List.length_cons, ← addr_succ, ih]

/-- A call of `bcopy` whose source is not written meanwhile. -/
theorem bcopy_eq (h : Reads (identity mem) src bs)
    (hd : ∀ m < bs.length, ∀ j < bs.length, src + BitVec.ofNat 32 m ≠ a + BitVec.ofNat 32 j) :
    Memory.bcopy src a bs.length mem = poke mem a bs := by
  induction bs generalizing src a mem with
  | nil => rfl
  | cons b bs ih =>
      obtain ⟨hb, hbs⟩ := h
      rw [List.length_cons] at hd ⊢
      rw [Memory.bcopy, poke, show mem src = b from Option.some.inj hb, ih]
      · rw [reads_identity] at hbs ⊢
        intro m hm
        have hne := hd (m + 1) (by omega) 0 (by omega)
        rw [BitVec.add_zero] at hne
        rw [Function.update_of_ne (by rwa [addr_succ]), hbs m hm]
      · intro m hm j hj
        rw [addr_succ, addr_succ]
        exact hd (m + 1) (by omega) (j + 1) (by omega)

/-- The word behind the entries names a frame, or nothing. -/
def PageAligned (pcb : Memory.PCB) : Prop :=
  (pcb.wordAt pcb.npages.toNat &&& Memory.memoryPteMask).toNat % memoryPageSize = 0

/-- The bytes of a call of `bcopy` are those that the page table names. -/
theorem translate_round (h : pcb.Mapped) (ha : PageAligned pcb)
    (hu : (u.toNat / memoryPageSize : ℕ) ≤ pcb.npages) (hv : pcb.named u.toNat ≠ 0)
    (hk : k < Memory.bytesToCopy (pcb.named u.toNat) n) :
    Memory.memoryTranslateUserToSystem pcb (u + BitVec.ofNat 32 k) =
        .ok (pcb.named u.toNat + BitVec.ofNat 32 k) ∧
      pcb.named u.toNat + BitVec.ofNat 32 k ≠ 0 := by
  have hmax := h.le_max
  have hoffset : (pcb.named u.toNat).toNat % memoryPageSize = u.toNat % memoryPageSize := by
    rcases lt_or_eq_of_le hu with hlt | heq
    · exact (h.owns_named hlt).2
    · have hpage : u.toNat / memoryPageSize = pcb.npages.toNat := by
        rw [← heq]
        rfl
      unfold Memory.PCB.named
      unfold PageAligned at ha
      rw [hpage, BitVec.toNat_add, BitVec.toNat_ofNat]
      unfold memoryPageSize at *
      omega
  have hle : k < memoryPageSize - u.toNat % memoryPageSize := by
    rw [← hoffset]
    exact hk.trans_le (min_le_left ..)
  have hsame : (u.toNat + k) / memoryPageSize = u.toNat / memoryPageSize := by
    unfold memoryPageSize at *
    omega
  have hnat : (u + BitVec.ofNat 32 k).toNat = u.toNat + k := by
    unfold Memory.processMaxPages at hmax
    unfold memoryPageSize at *
    rw [BitVec.toNat_add, BitVec.toNat_ofNat]
    omega
  constructor
  · rw [Memory.translate_named h (by rw [hnat, hsame]; exact hu), hnat, Memory.PCB.named_add hsame]
  · have hchunk := (Memory.chunk_toNat hk).1
    intro hz
    rw [hz] at hchunk
    change 0 = _ at hchunk
    apply hv
    apply BitVec.eq_of_toNat_eq
    change _ = 0
    omega

/-- What is read does not change while bytes that are not read are written. -/
theorem readUser_congr {mem' : Bytes} (h : ∀ v, Memory.memoryTranslateUserToSystem pcb a = .ok v →
    v ≠ 0 → mem' v = mem v) : readUser pcb mem' a = readUser pcb mem a := by
  unfold readUser
  cases ht : Memory.memoryTranslateUserToSystem pcb a with
  | error e => rfl
  | ok v =>
      simp only
      split
      · rfl
      · rename_i hne
        rw [h v ht hne]

/-- None of the bytes of system space from `s` on is one that the range of user space names. -/
def Apart (pcb : Memory.PCB) (s u : Word) (n : ℕ) : Prop :=
  ∀ k < n, ∀ v, Memory.memoryTranslateUserToSystem pcb (u + BitVec.ofNat 32 k) = .ok v → v ≠ 0 →
    ∀ j < n, v ≠ s + BitVec.ofNat 32 j

theorem Apart.rest (h : Apart pcb src u n) (hk : k ≤ n) :
    Apart pcb (src + BitVec.ofNat 32 k) (u + BitVec.ofNat 32 k) (n - k) := by
  intro m hm v ht hv j hj
  rw [BitVec.add_assoc, ← BitVec.ofNat_add] at ht ⊢
  exact h _ (by omega) v ht hv _ (by omega)

theorem readUser_stop (h : pcb.Mapped)
    (hs : pcb.npages < (u.toNat / memoryPageSize : ℕ) ∨ pcb.named u.toNat = 0) :
    readUser pcb mem u = none := by
  unfold readUser
  rw [Memory.translate_stop h hs]
  exact if_pos rfl

/-- The bytes of memory from an address on. -/
def bytesAt (mem : Bytes) (a : Word) (k : ℕ) : List Byte :=
  List.ofFn fun j : Fin k => mem (a + BitVec.ofNat 32 j.val)

@[simp] theorem length_bytesAt : (bytesAt mem a k).length = k := List.length_ofFn

theorem reads_bytesAt : Reads (identity mem) a (bytesAt mem a k) := by
  rw [reads_identity]
  intro m hm
  simp [bytesAt]

/-- The bytes of a call of `bcopy` are read by the process. -/
theorem readUser_round (mem : Bytes) (h : pcb.Mapped) (ha : PageAligned pcb)
    (hu : (u.toNat / memoryPageSize : ℕ) ≤ pcb.npages) (hv : pcb.named u.toNat ≠ 0)
    (hk : Memory.bytesToCopy (pcb.named u.toNat) n = k) :
    Reads (readUser pcb mem) u (bytesAt mem (pcb.named u.toNat) k) := by
  rw [reads_iff]
  intro m hm
  rw [length_bytesAt] at hm
  obtain ⟨ht, hne⟩ := translate_round h ha hu hv (hk ▸ hm)
  unfold readUser
  rw [ht]
  simp only
  rw [if_neg hne]
  simp [bytesAt]

/-- `MemoryCopyUserToSystem` copies the bytes up to the first address that is not mapped. -/
theorem moveLoop_readable (h : pcb.Mapped) (ha : PageAligned pcb) (hd : Apart pcb src u n) :
    ∃ c', Memory.moveLoop pcb (-1) src u n c = .ok c' ∧
      c'.mem = poke c.mem src (readable (readUser pcb c.mem) u n) := by
  induction n using Nat.strong_induction_on generalizing src u c with
  | _ n ih =>
    by_cases hstop : n = 0 ∨ pcb.npages < (u.toNat / memoryPageSize : ℕ) ∨ pcb.named u.toNat = 0
    · refine ⟨c, Memory.moveLoop_stop h hstop, ?_⟩
      cases n with
      | zero => rfl
      | succ n =>
          rw [readable, readUser_stop h (hstop.resolve_left (Nat.succ_ne_zero n))]
          rfl
    · push Not at hstop
      obtain ⟨hn, hu, hv⟩ := hstop
      have hpos := Memory.bytesToCopy_pos (pcb.named u.toNat) hn
      have hle : Memory.bytesToCopy (pcb.named u.toNat) n ≤ n := min_le_right ..
      have hround : ∀ j < Memory.bytesToCopy (pcb.named u.toNat) n,
          Memory.memoryTranslateUserToSystem pcb (u + BitVec.ofNat 32 j) =
            .ok (pcb.named u.toNat + BitVec.ofNat 32 j) ∧
          pcb.named u.toNat + BitVec.ofNat 32 j ≠ 0 := fun j hj => translate_round h ha hu hv hj
      rw [Memory.moveLoop_round h hn hu hv]
      generalize hk : Memory.bytesToCopy (pcb.named u.toNat) n = k at *
      have hreads := readUser_round c.mem h ha hu hv hk
      obtain ⟨bs, hbs⟩ : ∃ bs, bytesAt c.mem (pcb.named u.toNat) k = bs := ⟨_, rfl⟩
      have hlen : bs.length = k := by rw [← hbs, length_bytesAt]
      rw [hbs] at hreads
      have hmove : (c.move (pcb.named u.toNat) src k (-1)).mem = poke c.mem src bs := by
        have hcopy := bcopy_eq (a := src) (show Reads (identity c.mem) _ bs from hbs ▸ reads_bytesAt) (by
          intro m hm j hj
          rw [hlen] at hm hj
          exact hd m (by omega) _ (hround m hm).1 (hround m hm).2 j (by omega))
        rw [hlen] at hcopy
        exact hcopy
      obtain ⟨c', e, hmem⟩ := ih (n - k) (by omega) (hd.rest hle)
        (c := c.move (pcb.named u.toNat) src k (-1))
      refine ⟨c', e, ?_⟩
      have hcongr : readable (readUser pcb (poke c.mem src bs)) (u + BitVec.ofNat 32 k) (n - k) =
          readable (readUser pcb c.mem) (u + BitVec.ofNat 32 k) (n - k) := by
        apply readable_congr
        intro m hm
        apply readUser_congr
        intro v ht hne
        rw [BitVec.add_assoc, ← BitVec.ofNat_add] at ht
        rw [poke_before]
        intro j hj
        exact hd (k + m) (by omega) v ht hne j (by omega)
      rw [hmem, hmove, hcongr, ← hlen, poke_append, ← readable_of_reads hreads, hlen,
        Nat.add_sub_cancel' hle]

/-- The copy of an array from user space is the copy of its place in memory. -/
theorem copyUserToSystem_moves (h : pcb.Mapped) (ha : PageAligned pcb) (hd : Apart pcb src u n) :
    ∃ c', Memory.memoryCopyUserToSystem pcb u src n mem = .ok c' ∧
      c'.mem = poke mem src (readable (readUser pcb mem) u n) :=
  moveLoop_readable h ha hd

theorem copy_stop (h : pcb.Mapped)
    (hs : bs = [] ∨ pcb.npages < (u.toNat / memoryPageSize : ℕ) ∨ pcb.named u.toNat = 0) :
    memoryCopySystemToUser pcb bs u mem = .ok mem := by
  cases bs with
  | nil => rfl
  | cons b bs =>
      rw [memoryCopySystemToUser,
        Memory.translate_stop h (hs.resolve_left (List.cons_ne_nil b bs))]
      rfl

/-- `MemoryCopySystemToUser` writes the bytes up to the first address that is not mapped. -/
theorem moveLoop_writes (h : pcb.Mapped) (ha : PageAligned pcb) (hd : Apart pcb src u bs.length)
    (hbs : Reads (identity c.mem) src bs) :
    ∃ c', Memory.moveLoop pcb 1 src u bs.length c = .ok c' ∧
      memoryCopySystemToUser pcb bs u c.mem = .ok c'.mem := by
  induction hn : bs.length using Nat.strong_induction_on generalizing src u c bs with
  | _ n ih =>
    subst hn
    by_cases hstop : bs.length = 0 ∨ pcb.npages < (u.toNat / memoryPageSize : ℕ) ∨
        pcb.named u.toNat = 0
    · refine ⟨c, Memory.moveLoop_stop h hstop, copy_stop h ?_⟩
      rwa [List.length_eq_zero_iff] at hstop
    · push Not at hstop
      obtain ⟨hn, hu, hv⟩ := hstop
      have hpos := Memory.bytesToCopy_pos (pcb.named u.toNat) hn
      have hle : Memory.bytesToCopy (pcb.named u.toNat) bs.length ≤ bs.length := min_le_right ..
      have hround : ∀ j < Memory.bytesToCopy (pcb.named u.toNat) bs.length,
          Memory.memoryTranslateUserToSystem pcb (u + BitVec.ofNat 32 j) =
            .ok (pcb.named u.toNat + BitVec.ofNat 32 j) ∧
          pcb.named u.toNat + BitVec.ofNat 32 j ≠ 0 := fun j hj => translate_round h ha hu hv hj
      rw [Memory.moveLoop_round h hn hu hv]
      generalize Memory.bytesToCopy (pcb.named u.toNat) bs.length = k at *
      have hlen : (bs.take k).length = k := by
        rw [List.length_take]
        omega
      have hsplit : Reads (identity c.mem) src (bs.take k ++ bs.drop k) := by
        rwa [List.take_append_drop]
      obtain ⟨hfirst, hrest⟩ := reads_append.mp hsplit
      rw [hlen] at hrest
      have hmove : (c.move (pcb.named u.toNat) src k 1).mem =
          poke c.mem (pcb.named u.toNat) (bs.take k) := by
        have hcopy := bcopy_eq (a := pcb.named u.toNat) hfirst (by
          intro m hm j hj
          rw [hlen] at hm hj
          exact (hd j (by omega) _ (hround j hj).1 (hround j hj).2 m (by omega)).symm)
        rw [hlen] at hcopy
        exact hcopy
      have hafter : Reads (identity (c.move (pcb.named u.toNat) src k 1).mem)
          (src + BitVec.ofNat 32 k) (bs.drop k) := by
        rw [hmove]
        rw [reads_identity] at hrest ⊢
        intro m hm
        rw [poke_before, hrest m hm]
        intro j hj
        rw [hlen] at hj
        rw [List.length_drop] at hm
        rw [BitVec.add_assoc, ← BitVec.ofNat_add]
        exact (hd j (by omega) _ (hround j hj).1 (hround j hj).2 (k + m) (by omega)).symm
      have hdrop : bs.length - k = (bs.drop k).length := by rw [List.length_drop]
      obtain ⟨c', e, hmem⟩ := ih (bs.drop k).length (by omega)
        (c := c.move (pcb.named u.toNat) src k 1) (hdrop ▸ hd.rest hle) hafter rfl
      refine ⟨c', hdrop ▸ e, ?_⟩
      have hcopy := copy_named c.mem (bs.take k) (bs.drop k) fun j hj => hround j (hlen ▸ hj)
      rw [List.take_append_drop, hlen] at hcopy
      rw [hcopy, ← hmove, hmem]

theorem copySystemToUser_moves (h : pcb.Mapped) (ha : PageAligned pcb)
    (hd : Apart pcb src u bs.length) (hbs : Reads (identity mem) src bs) :
    ∃ c', Memory.memoryCopySystemToUser pcb src u bs.length mem = .ok c' ∧
      memoryCopySystemToUser pcb bs u mem = .ok c'.mem :=
  moveLoop_writes (c := ⟨mem, 0, []⟩) h ha hd hbs

end DlxOs.Traps
