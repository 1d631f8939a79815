import DlxOs.Library.Copying
import DlxOs.Memory.Copies

/-!
# Copies page by page

`moveBetweenSpaces` translates one address for each page and copies up to the
end of that page. When all entries that the translation can read were set up, it
copies the bytes that a copy of one byte after the other would copy: those up to
the first address that is not translated.
-/

namespace DlxOs.Memory

open Copying

variable {pcb : PCB} {s u a b v : BitVec 32} {dir : ℤ} {mem : Bytes} {k m : ℕ}

/-- All entries that the translation can read were built by `MemorySetupPte`, of different pages. -/
structure PCB.SetUp (pcb : PCB) : Prop where
  lt_max : pcb.npages < processMaxPages
  setup : ∀ i : Fin processMaxPages, (i : ℤ) ≤ pcb.npages →
    ∃ page, pcb.pagetable i = memorySetupPte page
  distinct : ∀ i j : Fin processMaxPages, (i : ℤ) ≤ pcb.npages → (j : ℤ) ≤ pcb.npages →
    pcb.pagetable i = pcb.pagetable j → i = j

/-- Different page numbers give different entries. -/
theorem PCB.SetUp.of_pages (hmax : pcb.npages < processMaxPages) (page : Fin processMaxPages → ℕ)
    (hpage : ∀ i, page i < memoryMaxPages)
    (setup : ∀ i : Fin processMaxPages, (i : ℤ) ≤ pcb.npages →
      pcb.pagetable i = memorySetupPte (BitVec.ofNat 32 (page i)))
    (distinct : ∀ i j : Fin processMaxPages, (i : ℤ) ≤ pcb.npages → (j : ℤ) ≤ pcb.npages →
      page i = page j → i = j) : pcb.SetUp where
  lt_max := hmax
  setup i hi := ⟨_, setup i hi⟩
  distinct := by
    intro i j hi hj heq
    apply distinct i j hi hj
    have hframe := congrArg (fun e : BitVec 32 => e.toNat / memoryPageSize) heq
    simp only [setup i hi, setup j hj, setupPte_frame, BitVec.toNat_ofNat] at hframe
    have := hpage i
    have := hpage j
    unfold memoryMaxPages at *
    unfold memoryPageSize at hframe
    omega

/-- An entry depends on the frame of its page only. -/
theorem setupPte_congr {page page' : BitVec 32}
    (h : page.toNat % memoryPageSize = page'.toNat % memoryPageSize) :
    memorySetupPte page = memorySetupPte page' := by
  have hbase : page * BitVec.ofNat 32 memoryPageSize = page' * BitVec.ofNat 32 memoryPageSize := by
    apply BitVec.eq_of_toNat_eq
    rw [setupPte_toNat, setupPte_toNat, h]
  rw [memorySetupPte, hbase, memorySetupPte]

/-- The physical address of a user address, or 0. -/
def PCB.translation (pcb : PCB) (addr : BitVec 32) : BitVec 32 :=
  match memoryTranslateUserToSystem pcb addr with
  | .ok v => v
  | .error _ => 0

theorem translation_eq (ht : memoryTranslateUserToSystem pcb u = .ok v) :
    pcb.translation u = v := by
  unfold PCB.translation
  rw [ht]

/-- An address is translated by the entry of its page, to the same offset in the frame. -/
theorem PCB.SetUp.translate (h : pcb.SetUp) (ha : (a.toNat / memoryPageSize : ℕ) ≤ pcb.npages) :
    memoryTranslateUserToSystem pcb a = .ok (pcb.named a.toNat) ∧
      ∃ i : Fin processMaxPages, (i : ℤ) ≤ pcb.npages ∧ a.toNat / memoryPageSize = i ∧
        (pcb.named a.toNat).toNat / memoryPageSize = (pcb.pagetable i).toNat / memoryPageSize ∧
        (pcb.named a.toNat).toNat % memoryPageSize = a.toNat % memoryPageSize := by
  have hmax := h.lt_max
  let i : Fin processMaxPages := ⟨a.toNat / memoryPageSize, by omega⟩
  obtain ⟨page, hp⟩ := h.setup i ha
  refine ⟨translate_word hmax.le ha, i, ha, rfl, ?_⟩
  have hoffset := Nat.mod_lt a.toNat (show 0 < memoryPageSize by decide)
  rw [PCB.named_own (i := i) rfl hp, setupPte_named, hp, setupPte_frame]
  constructor
  · rw [Nat.mul_comm, Nat.mul_add_div (by decide), Nat.div_eq_of_lt hoffset, Nat.add_zero]
  · rw [Nat.mul_add_mod', Nat.mod_mod]

/-- Every address has a translation, 0 among them. -/
theorem PCB.SetUp.translated (h : pcb.SetUp) (a : BitVec 32) :
    memoryTranslateUserToSystem pcb a = .ok (pcb.translation a) := by
  rcases lt_or_ge pcb.npages (a.toNat / memoryPageSize : ℕ) with hbeyond | hle
  · rw [translation_eq (translate_beyond hbeyond), translate_beyond hbeyond]
  · rw [translation_eq (h.translate hle).1, (h.translate hle).1]

theorem page_le_of_translation (ha : pcb.translation a ≠ 0) :
    (a.toNat / memoryPageSize : ℕ) ≤ pcb.npages := by
  by_contra hbeyond
  exact ha (translation_eq (translate_beyond (not_le.mp hbeyond)))

/-- Different addresses are translated to different bytes. -/
theorem PCB.SetUp.translation_inj (h : pcb.SetUp) (ha : pcb.translation a ≠ 0)
    (heq : pcb.translation a = pcb.translation b) : a = b := by
  obtain ⟨hta, i, hi, hai, hframe, hoffset⟩ := h.translate (page_le_of_translation ha)
  obtain ⟨htb, j, hj, hbj, hframe', hoffset'⟩ := h.translate (page_le_of_translation (heq ▸ ha))
  rw [translation_eq hta, translation_eq htb] at heq
  rw [heq] at hframe hoffset
  have hij : i = j := by
    apply h.distinct i j hi hj
    obtain ⟨page, hp⟩ := h.setup i hi
    obtain ⟨page', hp'⟩ := h.setup j hj
    rw [hframe', hp, hp', setupPte_frame, setupPte_frame] at hframe
    rw [hp, hp', setupPte_congr hframe.symm]
  apply BitVec.eq_of_toNat_eq
  rw [← Nat.div_add_mod a.toNat memoryPageSize, ← Nat.div_add_mod b.toNat memoryPageSize, hai, hbj,
    hij, ← hoffset, hoffset']

/-- A round copies bytes that are translated one by one. -/
theorem PCB.SetUp.translation_add (h : pcb.SetUp) (hv : pcb.translation u ≠ 0)
    (hk : k < bytesToCopy (pcb.translation u) m) :
    pcb.translation (u + BitVec.ofNat 32 k) = pcb.translation u + BitVec.ofNat 32 k ∧
      pcb.translation u + BitVec.ofNat 32 k ≠ 0 := by
  have hmax := h.lt_max
  have hu := page_le_of_translation hv
  obtain ⟨ht, -, -, -, -, hoffset⟩ := h.translate hu
  have hchunk := (chunk_toNat hk).1
  have hfits : k < memoryPageSize - u.toNat % memoryPageSize := by
    rw [translation_eq ht] at hk
    rw [← hoffset]
    exact hk.trans_le (min_le_left ..)
  have hpage : (u.toNat + k) / memoryPageSize = u.toNat / memoryPageSize := by
    unfold memoryPageSize at *
    omega
  have hnat : (u + BitVec.ofNat 32 k).toNat = u.toNat + k := by
    unfold processMaxPages at hmax
    unfold memoryPageSize at *
    rw [BitVec.toNat_add, BitVec.toNat_ofNat]
    omega
  constructor
  · have hnext : ((u + BitVec.ofNat 32 k).toNat / memoryPageSize : ℕ) ≤ pcb.npages := by
      rwa [hnat, hpage]
    rw [translation_eq (h.translate hnext).1, hnat, PCB.named_add hpage, translation_eq ht]
  · intro hz
    rw [hz] at hchunk
    apply hv
    apply BitVec.eq_of_toNat_eq
    change 0 = _ at hchunk
    change _ = 0
    omega

/-! ### What a copy does -/

/-- Byte `i` of the system buffer. -/
def systemByte (s : BitVec 32) (i : ℕ) : BitVec 32 := s + BitVec.ofNat 32 i

/-- The byte that is named by the user address `u + i`, or 0. -/
def PCB.userByte (pcb : PCB) (u : BitVec 32) (i : ℕ) : BitVec 32 :=
  pcb.translation (u + BitVec.ofNat 32 i)

/-- The first `m` bytes were copied in the direction asked for, and no other byte has changed. -/
def PCB.Moved (pcb : PCB) (dir : ℤ) (s u : BitVec 32) (m : ℕ) (mem mem' : Bytes) : Prop :=
  if dir ≥ 0 then Copies (systemByte s) (pcb.userByte u) m mem mem'
  else Copies (pcb.userByte u) (systemByte s) m mem mem'

/-- No byte of the system buffer is one that the user range names. -/
def PCB.Disjoint (pcb : PCB) (s u : BitVec 32) (n : ℕ) : Prop :=
  ∀ i < n, pcb.userByte u i ≠ 0 → ∀ j < n, pcb.userByte u i ≠ systemByte s j

@[simp] theorem systemByte_zero : systemByte s 0 = s := BitVec.add_zero s

theorem systemByte_add : systemByte (s + BitVec.ofNat 32 k) m = systemByte s (k + m) := by
  unfold systemByte
  rw [BitVec.add_assoc, BitVec.ofNat_add]

theorem userByte_add : pcb.userByte (u + BitVec.ofNat 32 k) m = pcb.userByte u (k + m) := by
  unfold PCB.userByte
  rw [BitVec.add_assoc, BitVec.ofNat_add]

theorem systemByte_inj {i j : ℕ} (hi : i < 2 ^ 32) (hj : j < 2 ^ 32)
    (h : systemByte s i = systemByte s j) : i = j := by
  unfold systemByte at h
  bv_omega

/-- A call of `bcopy` copies byte by byte, when what it reads is not written meanwhile. -/
theorem bcopy_copies (hk : k ≤ 2 ^ 32) (hd : ∀ i < k, ∀ j < k, systemByte s i ≠ systemByte u j) :
    Copies (systemByte s) (systemByte u) k mem (bcopy s u k mem) := by
  induction k generalizing s u mem with
  | zero => exact Copies.zero
  | succ k ih =>
      have hnext : ∀ (a : BitVec 32) (i : ℕ), systemByte (a + 1) i = systemByte a (1 + i) :=
        fun _ _ => systemByte_add
      have first : Copies (systemByte s) (systemByte u) 1 mem
          (Function.update mem (systemByte u 0) (mem (systemByte s 0))) := Copies.one
      rw [systemByte_zero, systemByte_zero] at first
      rw [bcopy, Nat.add_comm]
      apply first.append
      · apply (ih (by omega) _).congr
        · exact fun i _ => (hnext s i).symm
        · exact fun i _ => (hnext u i).symm
        · intro i hi j hj
          rw [hnext, hnext]
          exact hd _ (by omega) _ (by omega)
      · intro i hi j hj heq
        have := systemByte_inj (by omega) (by omega) heq
        omega
      · exact fun i hi j hj => hd _ (by omega) _ (by omega)

theorem PCB.SetUp.userByte_inj (h : pcb.SetUp) {i j : ℕ} (hi : i < 2 ^ 32) (hj : j < 2 ^ 32)
    (hne : pcb.userByte u i ≠ 0) (heq : pcb.userByte u i = pcb.userByte u j) : i = j :=
  systemByte_inj (s := u) hi hj (h.translation_inj hne heq)

/-- A range that is translated throughout fits into the pages of the process. -/
theorem PCB.SetUp.length_le (h : pcb.SetUp) (hall : ∀ i < m, pcb.userByte u i ≠ 0) :
    m ≤ processMaxPages * memoryPageSize := by
  have hmax := h.lt_max
  have below : ∀ i < m, (u + BitVec.ofNat 32 i).toNat < processMaxPages * memoryPageSize := by
    intro i hi
    have := page_le_of_translation (hall i hi)
    unfold processMaxPages memoryPageSize at *
    omega
  by_contra hgt
  have hfirst := below 0 (by omega)
  have hlast := below (processMaxPages * memoryPageSize - u.toNat) (by omega)
  unfold processMaxPages memoryPageSize at *
  bv_omega

section Loop

variable {mem' mem'' : Bytes}

/-- A copy and a copy of the bytes behind it make one copy. -/
theorem PCB.Moved.append (h : pcb.SetUp) (hd : pcb.Disjoint s u (k + m))
    (hall : ∀ i < k + m, pcb.userByte u i ≠ 0) (first : pcb.Moved dir s u k mem mem')
    (rest : pcb.Moved dir (s + BitVec.ofNat 32 k) (u + BitVec.ofNat 32 k) m mem' mem'') :
    pcb.Moved dir s u (k + m) mem mem'' := by
  have hlen : k + m ≤ 2 ^ 20 := h.length_le hall
  unfold PCB.Moved at *
  have hsystem : systemByte (s + BitVec.ofNat 32 k) = fun i => systemByte s (k + i) :=
    funext fun _ => systemByte_add
  have huser : pcb.userByte (u + BitVec.ofNat 32 k) = fun i => pcb.userByte u (k + i) :=
    funext fun _ => userByte_add
  rw [hsystem, huser] at rest
  split at first
  · rw [if_pos ‹_›] at rest ⊢
    apply first.append rest
    · intro i hi j hj heq
      have := h.userByte_inj (by omega) (by omega) (hall i (by omega)) heq
      omega
    · intro i hi j hj heq
      exact hd i (by omega) (hall i (by omega)) (k + j) (by omega) heq.symm
  · rw [if_neg ‹_›] at rest ⊢
    apply first.append rest
    · intro i hi j hj heq
      have := systemByte_inj (by omega) (by omega) heq
      omega
    · intro i hi j hj heq
      exact hd (k + j) (by omega) (hall _ (by omega)) i (by omega) heq

/-- A call of `bcopy` copies the bytes of its round. -/
theorem PCB.SetUp.move (dir : ℤ) (c : Copied) (h : pcb.SetUp) (hd : pcb.Disjoint s u m)
    (hv : pcb.translation u ≠ 0) (hk : bytesToCopy (pcb.translation u) m = k) :
    pcb.Moved dir s u k c.mem (c.move (pcb.translation u) s k dir).mem := by
  have hle : k ≤ m := hk ▸ min_le_right ..
  have hsmall : k ≤ 2 ^ 32 := by
    unfold bytesToCopy memoryPageSize at hk
    omega
  have huser : ∀ i < k, pcb.userByte u i = systemByte (pcb.translation u) i ∧
      systemByte (pcb.translation u) i ≠ 0 := fun i hi => h.translation_add hv (hk ▸ hi)
  have apart : ∀ i < k, ∀ j < k, systemByte (pcb.translation u) i ≠ systemByte s j := by
    intro i hi j hj
    obtain ⟨he, hne⟩ := huser i hi
    rw [← he] at hne ⊢
    exact hd i (by omega) hne j (by omega)
  unfold PCB.Moved Copied.move
  split
  · exact (bcopy_copies hsmall fun i hi j hj => (apart j hj i hi).symm).congr (fun _ _ => rfl)
      fun i hi => (huser i hi).1
  · exact (bcopy_copies hsmall apart).congr (fun i hi => (huser i hi).1) fun _ _ => rfl

theorem PCB.Moved.zero : pcb.Moved dir s u 0 mem mem := by
  unfold PCB.Moved
  split
  · exact Copies.zero
  · exact Copies.zero

theorem PCB.Disjoint.mono (hd : pcb.Disjoint s u m) (hk : k ≤ m) : pcb.Disjoint s u k :=
  fun i hi hne j hj => hd i (hi.trans_le hk) hne j (hj.trans_le hk)

/-- The rest of a range is disjoint from the rest of the buffer. -/
theorem PCB.Disjoint.rest (hd : pcb.Disjoint s u m) (hk : k ≤ m) :
    pcb.Disjoint (s + BitVec.ofNat 32 k) (u + BitVec.ofNat 32 k) (m - k) := by
  intro i hi hne j hj
  rw [userByte_add] at hne ⊢
  rw [systemByte_add]
  exact hd (k + i) (by omega) hne (k + j) (by omega)

/-- The loop copies the bytes up to the first address that is not translated. -/
theorem PCB.SetUp.moveLoop (dir : ℤ) (c : Copied) (h : pcb.SetUp) (hd : pcb.Disjoint s u k) :
    ∃ c' m, Memory.moveLoop pcb dir s u k c = .ok c' ∧ c'.bytesCopied = c.bytesCopied + (m : ℕ) ∧
      IsGreatest (initialSegments (fun i => pcb.userByte u i ≠ 0) k) m ∧
      pcb.Moved dir s u m c.mem c'.mem := by
  induction k using Nat.strong_induction_on generalizing s u c with
  | _ n ih =>
    have hzero : pcb.userByte u 0 = pcb.translation u := by simp [PCB.userByte]
    by_cases hstop : n = 0 ∨ pcb.translation u = 0
    · refine ⟨c, 0, moveLoop_end ?_, by simp, isGreatest_zero ?_, PCB.Moved.zero⟩
      · apply hstop.imp_right
        intro hz
        rw [h.translated u, hz]
      · rw [hzero]
        exact hstop.imp_right not_not_intro
    · push Not at hstop
      obtain ⟨hn, hv⟩ := hstop
      rw [moveLoop_step hn (h.translated u) hv]
      have hpos := bytesToCopy_pos (pcb.translation u) hn
      have hle : bytesToCopy (pcb.translation u) n ≤ n := min_le_right ..
      have hround : ∀ i < bytesToCopy (pcb.translation u) n, pcb.userByte u i ≠ 0 := by
        intro i hi
        obtain ⟨he, hne⟩ := h.translation_add hv hi
        exact ne_of_eq_of_ne he hne
      have hmove := h.move dir c hd hv rfl
      generalize bytesToCopy (pcb.translation u) n = k at *
      obtain ⟨c', m, e, hcount, hgreatest, hrest⟩ := ih (n - k) (by omega)
        (c.move (pcb.translation u) s k dir) (hd.rest hle)
      simp only [userByte_add] at hgreatest
      have hgreatest := isGreatest_add hle hround hgreatest
      refine ⟨c', k + m, e, ?_, hgreatest, ?_⟩
      · rw [hcount, Copied.move, Nat.cast_add, add_assoc]
      · obtain ⟨hcovers, hall⟩ := hgreatest.1
        exact hmove.append h (hd.mono hcovers) hall hrest

/-- After a copy, both sides hold the same bytes. -/
theorem PCB.Moved.agree (hm : pcb.Moved dir s u m mem mem') (hd : pcb.Disjoint s u m)
    (hall : ∀ i < m, pcb.userByte u i ≠ 0) {i : ℕ} (hi : i < m) :
    mem' (systemByte s i) = mem' (pcb.userByte u i) := by
  have apart : ∀ i < m, ∀ j < m, pcb.userByte u i ≠ systemByte s j :=
    fun i hi j hj => hd i hi (hall i hi) j hj
  unfold PCB.Moved at hm
  split at hm
  · rw [hm.copied i hi, hm.source (fun i hi j hj => (apart j hj i hi).symm) hi]
  · rw [hm.copied i hi, hm.source apart hi]

end Loop

/-- Copying page by page is copying byte by byte, up to the first address that is not translated. -/
theorem moveBetweenSpaces_bytewise (n dir : ℤ) (mem : Bytes) (h : pcb.SetUp)
    (hd : pcb.Disjoint s u n.toNat) :
    (∀ addr, memoryTranslateUserToSystem pcb addr = .ok (pcb.translation addr)) ∧
    ∃ c m, moveBetweenSpaces pcb s u n dir mem = .ok c ∧ c.bytesCopied = (m : ℕ) ∧
      IsGreatest (initialSegments (fun i => pcb.userByte u i ≠ 0) n.toNat) m ∧
      pcb.Moved dir s u m mem c.mem ∧
      ∀ i < m, c.mem (systemByte s i) = c.mem (pcb.userByte u i) := by
  obtain ⟨c, m, e, hcount, hgreatest, hmoved⟩ := h.moveLoop dir ⟨mem, 0, []⟩ hd
  refine ⟨h.translated, c, m, e, ?_, hgreatest, hmoved, ?_⟩
  · rw [hcount, zero_add]
  · obtain ⟨hcovers, hall⟩ := hgreatest.1
    exact fun i hi => hmoved.agree (hd.mono hcovers) hall hi

theorem moveBetweenSpaces_bytewise_straddling : ∃ pcb : PCB, pcb.npages = 1 ∧ ∀ dir mem,
    ∃ c, moveBetweenSpaces pcb 0x1000 0xfffe 4 dir mem = .ok c ∧ c.bytesCopied = 4 ∧
      c.mem (systemByte 0x1000 2) = c.mem 0x90000 := by
  let pcb : PCB := ⟨0, 0, fun i => memorySetupPte (BitVec.ofNat 32 (5 + 4 * i)), 1⟩
  have h : pcb.SetUp := PCB.SetUp.of_pages (by decide) (fun i => 5 + 4 * i)
    (by decide) (fun _ _ => rfl) fun i j _ _ heq => Fin.ext (by omega)
  have hd : pcb.Disjoint 0x1000 0xfffe 4 := by
    unfold PCB.Disjoint
    decide
  refine ⟨pcb, rfl, fun dir mem => ?_⟩
  obtain ⟨-, c, m, e, hcount, ⟨⟨hle, -⟩, hmax⟩, -, hagree⟩ :=
    moveBetweenSpaces_bytewise 4 dir mem h hd
  obtain rfl : m = 4 := le_antisymm hle (hmax ⟨le_rfl, by decide⟩)
  have hbyte : pcb.userByte 0xfffe 2 = 0x90000 := by decide
  refine ⟨c, e, hcount, ?_⟩
  rw [← hbyte]
  exact hagree 2 (by decide)

end DlxOs.Memory
