import DlxOs.Memory.Pages

/-!
# Copies between user and system space

A process owns the frames of its first `npages` page-table entries. The check in
`MemoryTranslateUserToSystem` admits one page number more: for this one, the
word after the last entry decides where a copy goes.
-/

namespace DlxOs.Memory

open Kernel (Halt ok_bind)

variable {pcb : PCB} {s u addr : BitVec 32} {n dir : ℤ} {mem : Bytes}

/-- The entries of the pages were built by `MemorySetupPte`. -/
structure PCB.Mapped (pcb : PCB) : Prop where
  one_le : 1 ≤ pcb.npages
  le_max : pcb.npages ≤ processMaxPages
  setup : ∀ i : Fin processMaxPages, (i : ℤ) < pcb.npages →
    ∃ page, pcb.pagetable i = memorySetupPte page

/-- A byte of one of the frames of the process. -/
def PCB.Owns (pcb : PCB) (a : BitVec 32) : Prop :=
  ∃ i : Fin processMaxPages, (i : ℤ) < pcb.npages ∧
    a.toNat / memoryPageSize = (pcb.pagetable i).toNat / memoryPageSize

/-- An address is translated within the page table, by the frame and the offset, or not at all. -/
def PCB.TranslatesInside (pcb : PCB) (addr : BitVec 32) : Prop :=
  ∃ v, memoryTranslateUserToSystem pcb addr = .ok v ∧ (v ≠ 0 →
    ∃ i : Fin processMaxPages, (i : ℤ) < pcb.npages ∧ addr.toNat / memoryPageSize = i ∧
      ∀ page, pcb.pagetable i = memorySetupPte page →
        v = page * BitVec.ofNat 32 memoryPageSize + BitVec.ofNat 32 (addr.toNat % memoryPageSize))

/-- A byte on the user side of a call of `bcopy`. -/
def Chunk.Touches (chunk : Chunk) (a : BitVec 32) : Prop :=
  ∃ k < chunk.bytesToCopy, a = chunk.curUser + BitVec.ofNat 32 k

/-- A copy touches bytes of the process on its user side, and no others. -/
def PCB.CopiesInside (pcb : PCB) (copied : Except Halt Copied) : Prop :=
  ∃ c, copied = .ok c ∧ ∀ chunk ∈ c.chunks, ∀ a, chunk.Touches a → pcb.Owns a

/-- The word of the PCB at the index of a page. -/
def PCB.wordAt (pcb : PCB) (page : ℕ) : BitVec 32 :=
  if h : page < processMaxPages then pcb.pagetable ⟨page, h⟩ else BitVec.ofInt 32 pcb.npages

/-- The physical address that the word of its page gives for a user address. -/
def PCB.named (pcb : PCB) (a : ℕ) : BitVec 32 :=
  (pcb.wordAt (a / memoryPageSize) &&& memoryPteMask) + BitVec.ofNat 32 (a % memoryPageSize)

theorem memoryPteMask_bit {i : ℕ} (hi : i < 32) : memoryPteMask.getLsbD i = decide (3 ≤ i) := by
  revert i
  decide

/-- The mask takes the flag off an entry that was set up. -/
theorem setupPte_mask (page : BitVec 32) :
    memorySetupPte page &&& memoryPteMask = page * BitVec.ofNat 32 memoryPageSize := by
  have hmul : page * BitVec.ofNat 32 memoryPageSize = page <<< 16 := by
    rw [BitVec.shiftLeft_eq_mul_twoPow]
    rfl
  apply BitVec.eq_of_getLsbD_eq
  intro i hi
  rw [memorySetupPte, hmul, BitVec.getLsbD_and, BitVec.getLsbD_or, memoryPteMask_bit hi,
    BitVec.getLsbD_shiftLeft]
  have hv : memoryPteValid.getLsbD i = decide (i = 0) := by
    rw [show memoryPteValid = 1#32 from rfl, BitVec.getLsbD_one]
    simp
  rw [hv]
  grind

theorem setupPte_toNat (page : BitVec 32) :
    (page * BitVec.ofNat 32 memoryPageSize).toNat = page.toNat % memoryPageSize * memoryPageSize := by
  rw [BitVec.toNat_mul, BitVec.toNat_ofNat]
  unfold memoryPageSize
  omega

/-- The frame of an entry that was set up. -/
theorem setupPte_frame (page : BitVec 32) :
    (memorySetupPte page).toNat / memoryPageSize = page.toNat % memoryPageSize := by
  rw [memorySetupPte, BitVec.toNat_or, setupPte_toNat]
  have h : 2 ^ 16 * (page.toNat % memoryPageSize) + 1 =
      2 ^ 16 * (page.toNat % memoryPageSize) ||| 1 :=
    Nat.two_pow_add_eq_or_of_lt (by decide) _
  rw [Nat.mul_comm]
  change (2 ^ 16 * (page.toNat % memoryPageSize) ||| 1) / memoryPageSize = _
  rw [← h]
  unfold memoryPageSize
  omega

theorem PCB.entry_eq {i : ℕ} (hi : i ≤ processMaxPages) : pcb.entry i = .ok (pcb.wordAt i) := by
  unfold PCB.entry PCB.wordAt
  split
  · rfl
  · rw [if_pos (by omega)]

/-- An address is translated by the word of its page, where there is one. -/
theorem translate_word (hmax : pcb.npages ≤ processMaxPages)
    (ha : (addr.toNat / memoryPageSize : ℕ) ≤ pcb.npages) :
    memoryTranslateUserToSystem pcb addr = .ok (pcb.named addr.toNat) := by
  unfold memoryTranslateUserToSystem
  rw [if_neg (not_lt.mpr ha)]
  simp only [PCB.entry_eq (show addr.toNat / memoryPageSize ≤ processMaxPages by omega), ok_bind]
  rfl

/-- Up to the page after the last one, an address is translated by the word of its page. -/
theorem translate_named (h : pcb.Mapped) (ha : (addr.toNat / memoryPageSize : ℕ) ≤ pcb.npages) :
    memoryTranslateUserToSystem pcb addr = .ok (pcb.named addr.toNat) :=
  translate_word h.le_max ha

theorem translate_beyond (ha : pcb.npages < (addr.toNat / memoryPageSize : ℕ)) :
    memoryTranslateUserToSystem pcb addr = .ok 0 := by
  unfold memoryTranslateUserToSystem
  rw [if_pos ha]
  rfl

/-- The address of a byte in an own page: the frame base and the offset. -/
theorem PCB.named_own {a : ℕ} {i : Fin processMaxPages} {page : BitVec 32}
    (ha : a / memoryPageSize = i) (hp : pcb.pagetable i = memorySetupPte page) :
    pcb.named a = page * BitVec.ofNat 32 memoryPageSize + BitVec.ofNat 32 (a % memoryPageSize) := by
  unfold PCB.named PCB.wordAt
  rw [dif_pos (ha ▸ i.isLt), show pcb.pagetable ⟨a / memoryPageSize, ha ▸ i.isLt⟩ =
    memorySetupPte page from (congrArg pcb.pagetable (Fin.ext ha)).trans hp, setupPte_mask]

/-- The entry of a page that the process has. -/
theorem PCB.Mapped.exists_entry (h : pcb.Mapped) {a : ℕ}
    (ha : (a / memoryPageSize : ℕ) < pcb.npages) :
    ∃ (i : Fin processMaxPages) (page : BitVec 32), (i : ℤ) < pcb.npages ∧
      a / memoryPageSize = i ∧ pcb.pagetable i = memorySetupPte page := by
  have hmax := h.le_max
  let i : Fin processMaxPages := ⟨a / memoryPageSize, by omega⟩
  obtain ⟨page, hp⟩ := h.setup i ha
  exact ⟨i, page, ha, rfl, hp⟩

theorem setupPte_named (page : BitVec 32) (k : ℕ) :
    (page * BitVec.ofNat 32 memoryPageSize + BitVec.ofNat 32 (k % memoryPageSize)).toNat =
      page.toNat % memoryPageSize * memoryPageSize + k % memoryPageSize := by
  rw [BitVec.toNat_add, setupPte_toNat, BitVec.toNat_ofNat]
  unfold memoryPageSize
  omega

/-- An own page is named byte by byte, in its own frame. -/
theorem PCB.Mapped.owns_named (h : pcb.Mapped) {a : ℕ}
    (ha : (a / memoryPageSize : ℕ) < pcb.npages) :
    pcb.Owns (pcb.named a) ∧ (pcb.named a).toNat % memoryPageSize = a % memoryPageSize := by
  obtain ⟨i, page, hi, hai, hp⟩ := h.exists_entry ha
  rw [PCB.named_own hai hp]
  refine ⟨⟨i, hi, ?_⟩, ?_⟩
  · rw [setupPte_named, hp, setupPte_frame]
    unfold memoryPageSize
    omega
  · rw [setupPte_named]
    unfold memoryPageSize
    omega

/-- A translation stays inside exactly when the word after the last entry gives 0 for it. -/
theorem translatesInside_iff (h : pcb.Mapped) :
    pcb.TranslatesInside addr ↔ ((addr.toNat / memoryPageSize : ℕ) = pcb.npages →
      pcb.named addr.toNat = 0) := by
  rcases lt_trichotomy ((addr.toNat / memoryPageSize : ℕ) : ℤ) pcb.npages with hlt | heq | hgt
  · refine iff_of_true ⟨_, translate_named h hlt.le, fun _ => ?_⟩ fun he => absurd he hlt.ne
    obtain ⟨i, -, hi, hai, -⟩ := h.exists_entry hlt
    exact ⟨i, hi, hai, fun page hp => PCB.named_own hai hp⟩
  · constructor
    · rintro ⟨v, e, hv⟩ -
      obtain rfl : pcb.named addr.toNat = v := by
        rw [translate_named h heq.le] at e
        exact Except.ok.inj e
      by_contra hne
      obtain ⟨i, hi, hai, -⟩ := hv hne
      omega
    · exact fun hz => ⟨_, translate_named h heq.le, absurd (hz heq)⟩
  · exact iff_of_true ⟨0, translate_beyond hgt, absurd rfl⟩ fun he => absurd he hgt.ne'

/-- The bytes of a range on the page after the last one are the process's own by the word after
the last entry, up to an address of the range that is named by 0, where the copy stops. -/
def PCB.Harmless (pcb : PCB) (u : ℕ) (n : ℤ) : Prop :=
  ∀ a : ℕ, u ≤ a → (a : ℤ) < u + n → (a / memoryPageSize : ℕ) = pcb.npages →
    pcb.Owns (pcb.named a) ∨ ∃ b, u ≤ b ∧ b ≤ a ∧ pcb.named b = 0

section Loop

variable {m k : ℕ} {c c' : Copied}

/-- Within a page, the next bytes are named by the next addresses. -/
theorem PCB.named_add {a : ℕ} (ha : (a + k) / memoryPageSize = a / memoryPageSize) :
    pcb.named (a + k) = pcb.named a + BitVec.ofNat 32 k := by
  unfold PCB.named
  have : (a + k) % memoryPageSize = a % memoryPageSize + k := by
    unfold memoryPageSize at *
    omega
  rw [ha, this, BitVec.ofNat_add, BitVec.add_assoc]

/-- The bytes of a call of `bcopy` lie in one frame. -/
theorem chunk_toNat {v : BitVec 32} (hk : k < bytesToCopy v m) :
    (v + BitVec.ofNat 32 k).toNat = v.toNat + k ∧
      (v.toNat + k) / memoryPageSize = v.toNat / memoryPageSize := by
  have hv := v.isLt
  unfold bytesToCopy memoryPageSize at hk
  unfold memoryPageSize
  rw [BitVec.toNat_add, BitVec.toNat_ofNat]
  omega

theorem PCB.Owns.chunk {v : BitVec 32} (h : pcb.Owns v) (hk : k < bytesToCopy v m) :
    pcb.Owns (v + BitVec.ofNat 32 k) := by
  obtain ⟨i, hi, hv⟩ := h
  have := chunk_toNat hk
  exact ⟨i, hi, by rw [this.1, this.2, hv]⟩

/-- One round of the loop, on an address that is translated. -/
theorem moveLoop_step {v : BitVec 32} (hm : m ≠ 0) (ht : memoryTranslateUserToSystem pcb u = .ok v)
    (hv : v ≠ 0) :
    moveLoop pcb dir s u m c =
      moveLoop pcb dir (s + BitVec.ofNat 32 (bytesToCopy v m))
        (u + BitVec.ofNat 32 (bytesToCopy v m)) (m - bytesToCopy v m)
        (c.move v s (bytesToCopy v m) dir) := by
  conv_lhs => unfold moveLoop
  rw [if_neg hm, ht, ok_bind, if_neg hv]

/-- The loop ends where no byte is left or an address is not translated. -/
theorem moveLoop_end (h : m = 0 ∨ memoryTranslateUserToSystem pcb u = .ok 0) :
    moveLoop pcb dir s u m c = .ok c := by
  unfold moveLoop
  rcases h with rfl | ht
  · rw [if_pos rfl]
  · rw [ht, ok_bind, if_pos rfl, ite_self]

theorem moveLoop_round (h : pcb.Mapped) (hm : m ≠ 0)
    (hu : (u.toNat / memoryPageSize : ℕ) ≤ pcb.npages) (hv : pcb.named u.toNat ≠ 0) :
    moveLoop pcb dir s u m c =
      moveLoop pcb dir (s + BitVec.ofNat 32 (bytesToCopy (pcb.named u.toNat) m))
        (u + BitVec.ofNat 32 (bytesToCopy (pcb.named u.toNat) m))
        (m - bytesToCopy (pcb.named u.toNat) m)
        (c.move (pcb.named u.toNat) s (bytesToCopy (pcb.named u.toNat) m) dir) :=
  moveLoop_step hm (translate_named h hu) hv

theorem translate_stop (h : pcb.Mapped)
    (hz : pcb.npages < (u.toNat / memoryPageSize : ℕ) ∨ pcb.named u.toNat = 0) :
    memoryTranslateUserToSystem pcb u = .ok 0 := by
  rcases lt_or_ge pcb.npages (u.toNat / memoryPageSize : ℕ) with hu | hu
  · exact translate_beyond hu
  · rw [translate_named h hu, hz.resolve_left (not_lt.mpr hu)]

theorem moveLoop_stop (h : pcb.Mapped) (hs : m = 0 ∨
    pcb.npages < (u.toNat / memoryPageSize : ℕ) ∨ pcb.named u.toNat = 0) :
    moveLoop pcb dir s u m c = .ok c :=
  moveLoop_end (hs.imp_right (translate_stop h))

/-- The addresses of one round: they do not wrap around, and on the page of the first they are
named by the bytes that are copied. -/
theorem PCB.Mapped.round (h : pcb.Mapped) (hu : (u.toNat / memoryPageSize : ℕ) ≤ pcb.npages) :
    (u + BitVec.ofNat 32 (bytesToCopy (pcb.named u.toNat) m)).toNat =
        u.toNat + bytesToCopy (pcb.named u.toNat) m ∧
      ((u.toNat / memoryPageSize : ℕ) < pcb.npages → ∀ k < bytesToCopy (pcb.named u.toNat) m,
        (u.toNat + k) / memoryPageSize = u.toNat / memoryPageSize) := by
  have hmax := h.le_max
  constructor
  · have hle : bytesToCopy (pcb.named u.toNat) m ≤ memoryPageSize := by
      unfold bytesToCopy
      omega
    unfold processMaxPages at hmax
    unfold memoryPageSize at hu hle
    rw [BitVec.toNat_add, BitVec.toNat_ofNat]
    omega
  · intro hlt k hk
    have := (h.owns_named hlt).2
    unfold bytesToCopy at hk
    unfold memoryPageSize at *
    omega

/-- On the pages up to the one after the last, the addresses of a round are named in order. -/
theorem PCB.Mapped.named_round (h : pcb.Mapped)
    (hu : (u.toNat / memoryPageSize : ℕ) ≤ pcb.npages) {a : ℕ} (ha : u.toNat ≤ a)
    (hlt : a < u.toNat + bytesToCopy (pcb.named u.toNat) m)
    (hpage : (a / memoryPageSize : ℕ) ≤ pcb.npages) :
    pcb.named a = pcb.named u.toNat + BitVec.ofNat 32 (a - u.toNat) := by
  have hsame : (u.toNat + (a - u.toNat)) / memoryPageSize = u.toNat / memoryPageSize := by
    rcases hu.lt_or_eq with hlt' | heq
    · exact (h.round (m := m) hu).2 hlt' _ (by omega)
    · have : u.toNat / memoryPageSize ≤ a / memoryPageSize := Nat.div_le_div_right ha
      rw [show u.toNat + (a - u.toNat) = a by omega]
      omega
  rw [← PCB.named_add hsame, show u.toNat + (a - u.toNat) = a by omega]

/-- No address of a round but its first can be named by 0. -/
theorem PCB.Mapped.round_ne_zero (h : pcb.Mapped)
    (hu : (u.toNat / memoryPageSize : ℕ) ≤ pcb.npages) (hv : pcb.named u.toNat ≠ 0) {a : ℕ}
    (ha : u.toNat ≤ a) (hlt : a < u.toNat + bytesToCopy (pcb.named u.toNat) m)
    (hpage : (a / memoryPageSize : ℕ) ≤ pcb.npages) : pcb.named a ≠ 0 := by
  intro hz
  have hb := (chunk_toNat (show a - u.toNat < bytesToCopy (pcb.named u.toNat) m by omega)).1
  rw [← h.named_round hu ha hlt hpage, hz] at hb
  apply hv
  apply BitVec.eq_of_toNat_eq
  change 0 = _ at hb
  change _ = 0
  omega

/-- The rest of a harmless range is harmless. -/
theorem PCB.Harmless.rest (hc : pcb.Harmless u.toNat m) (h : pcb.Mapped)
    (hu : (u.toNat / memoryPageSize : ℕ) ≤ pcb.npages) (hv : pcb.named u.toNat ≠ 0) :
    pcb.Harmless (u.toNat + bytesToCopy (pcb.named u.toNat) m)
      (m - bytesToCopy (pcb.named u.toNat) m : ℕ) := by
  intro a ha hlt hpage
  have hle : bytesToCopy (pcb.named u.toNat) m ≤ m := Nat.min_le_right _ _
  rcases hc a (by omega) (by omega) hpage with ho | ⟨b, hub, hba, hz⟩
  · exact .inl ho
  · refine .inr ⟨b, ?_, hba, hz⟩
    by_contra hb
    have hpb : (b / memoryPageSize : ℕ) ≤ pcb.npages := by
      have : b / memoryPageSize ≤ a / memoryPageSize := Nat.div_le_div_right hba
      omega
    exact h.round_ne_zero (m := m) hu hv hub (by omega) hpb hz

/-- A copy over a harmless range touches bytes of the process only. -/
theorem moveLoop_inside (h : pcb.Mapped) (hc : pcb.Harmless u.toNat m)
    (inside : ∀ chunk ∈ c.chunks, ∀ a, chunk.Touches a → pcb.Owns a) :
    pcb.CopiesInside (moveLoop pcb dir s u m c) := by
  induction hn : m using Nat.strong_induction_on generalizing m s u c with
  | _ n ih =>
    subst hn
    by_cases hs : m = 0 ∨ pcb.npages < (u.toNat / memoryPageSize : ℕ) ∨ pcb.named u.toNat = 0
    · exact ⟨c, moveLoop_stop h hs, inside⟩
    · push Not at hs
      obtain ⟨hm, hu, hv⟩ := hs
      rw [moveLoop_round h hm hu hv]
      have hpos := bytesToCopy_pos (pcb.named u.toNat) hm
      have owns : pcb.Owns (pcb.named u.toNat) := by
        rcases hu.lt_or_eq with hlt | heq
        · exact (h.owns_named hlt).1
        · rcases hc u.toNat le_rfl (by omega) heq with ho | ⟨b, hub, hbu, hz⟩
          · exact ho
          · exact absurd (le_antisymm hbu hub ▸ hz) hv
      refine ih _ (by omega) ?_ ?_ rfl
      · rw [(h.round hu).1]
        exact hc.rest h hu hv
      · rintro chunk hmem a ha
        rcases List.mem_append.mp hmem with hold | hnew
        · exact inside chunk hold a ha
        · obtain rfl := List.mem_singleton.mp hnew
          obtain ⟨k, hk, rfl⟩ := ha
          exact owns.chunk hk

/-- The loop keeps the calls it has made. -/
theorem moveLoop_keeps (h : pcb.Mapped) (e : moveLoop pcb dir s u m c = .ok c') :
    c.chunks ⊆ c'.chunks := by
  induction hn : m using Nat.strong_induction_on generalizing m s u c with
  | _ n ih =>
    subst hn
    by_cases hs : m = 0 ∨ pcb.npages < (u.toNat / memoryPageSize : ℕ) ∨ pcb.named u.toNat = 0
    · rw [moveLoop_stop h hs] at e
      rw [Except.ok.inj e]
      exact List.Subset.refl _
    · push Not at hs
      obtain ⟨hm, hu, hv⟩ := hs
      rw [moveLoop_round h hm hu hv] at e
      have hpos := bytesToCopy_pos (pcb.named u.toNat) hm
      exact List.Subset.trans (List.subset_append_left _ _) (ih _ (by omega) e rfl)

/-- A byte of the range on the page after the last one is touched, unless an address before it is
named by 0. -/
theorem moveLoop_touches (h : pcb.Mapped) (e : moveLoop pcb dir s u m c = .ok c') {a : ℕ}
    (ha : u.toNat ≤ a) (hlt : a < u.toNat + m) (hpage : (a / memoryPageSize : ℕ) = pcb.npages)
    (hz : ∀ b, u.toNat ≤ b → b ≤ a → pcb.named b ≠ 0) :
    ∃ chunk ∈ c'.chunks, chunk.Touches (pcb.named a) := by
  induction hn : m using Nat.strong_induction_on generalizing m s u c with
  | _ n ih =>
    subst hn
    have hm : m ≠ 0 := by omega
    have hv := hz u.toNat le_rfl ha
    have hu : (u.toNat / memoryPageSize : ℕ) ≤ pcb.npages := by
      have : u.toNat / memoryPageSize ≤ a / memoryPageSize := Nat.div_le_div_right ha
      omega
    rw [moveLoop_round h hm hu hv] at e
    have hpos := bytesToCopy_pos (pcb.named u.toNat) hm
    have hle : bytesToCopy (pcb.named u.toNat) m ≤ m := Nat.min_le_right _ _
    have hnext := (h.round (m := m) hu).1
    by_cases hin : a < u.toNat + bytesToCopy (pcb.named u.toNat) m
    · refine ⟨⟨pcb.named u.toNat, bytesToCopy (pcb.named u.toNat) m⟩,
        moveLoop_keeps h e (by simp [Copied.move]), a - u.toNat, ?_, ?_⟩
      · change a - u.toNat < bytesToCopy (pcb.named u.toNat) m
        omega
      · exact h.named_round hu ha hin hpage.le
    · exact ih _ (by omega) e (by omega) (by omega) (fun b hub hba => hz b (by omega) hba) rfl

/-- A copy stays inside exactly when its range is harmless. -/
theorem copiesInside_iff (mem : Bytes) (h : pcb.Mapped) :
    pcb.CopiesInside (moveBetweenSpaces pcb s u n dir mem) ↔ pcb.Harmless u.toNat n := by
  have hrange : ∀ a : ℕ, u.toNat ≤ a → ((a : ℤ) < u.toNat + n ↔ a < u.toNat + n.toNat) := by
    intro a ha
    omega
  constructor
  · rintro ⟨c, e, inside⟩ a ha hlt hpage
    by_contra hn
    push Not at hn
    obtain ⟨chunk, hmem, touches⟩ := moveLoop_touches h e ha ((hrange a ha).mp hlt) hpage hn.2
    exact hn.1 (inside chunk hmem _ touches)
  · intro hc
    apply moveLoop_inside h
    · intro a ha hlt hpage
      exact hc a ha ((hrange a ha).mpr (by omega)) hpage
    · simp

/-- Bytes outside its destination survive a call of `bcopy`. -/
theorem bcopy_of_ne {src dst a : BitVec 32} (ha : ∀ j < k, a ≠ dst + BitVec.ofNat 32 j) :
    bcopy src dst k mem a = mem a := by
  induction k generalizing src dst mem with
  | zero => rfl
  | succ k ih =>
      have hdst : a ≠ dst := by
        have := ha 0 (Nat.zero_lt_succ k)
        simpa using this
      unfold bcopy
      rw [ih, Function.update_of_ne hdst]
      intro j hj
      have := ha (j + 1) (Nat.succ_lt_succ hj)
      rwa [BitVec.ofNat_add, BitVec.add_comm (BitVec.ofNat 32 j), ← BitVec.add_assoc] at this

/-- A copy to user space writes only bytes that its calls of `bcopy` touch. -/
theorem moveLoop_mem (hd : 0 ≤ dir) (h : pcb.Mapped) (e : moveLoop pcb dir s u m c = .ok c')
    {a : BitVec 32} (ha : ∀ chunk ∈ c'.chunks, ¬ chunk.Touches a) : c'.mem a = c.mem a := by
  induction hn : m using Nat.strong_induction_on generalizing m s u c with
  | _ n ih =>
    subst hn
    by_cases hs : m = 0 ∨ pcb.npages < (u.toNat / memoryPageSize : ℕ) ∨ pcb.named u.toNat = 0
    · rw [moveLoop_stop h hs] at e
      rw [Except.ok.inj e]
    · push Not at hs
      obtain ⟨hm, hu, hv⟩ := hs
      rw [moveLoop_round h hm hu hv] at e
      have hpos := bytesToCopy_pos (pcb.named u.toNat) hm
      rw [ih _ (by omega) e rfl, Copied.move, if_pos hd]
      let chunk : Chunk := ⟨pcb.named u.toNat, bytesToCopy (pcb.named u.toNat) m⟩
      have hmem : chunk ∈ c'.chunks := moveLoop_keeps h e (by simp [Copied.move, chunk])
      exact bcopy_of_ne fun j hj he => ha chunk hmem ⟨j, hj, he⟩

end Loop

/-- Copies to user space leave the memory outside the frames of the process as it was. -/
theorem copySystemToUser_frame (h : pcb.Mapped) {src dst : BitVec 32}
    (hc : pcb.Harmless dst.toNat n) :
    ∃ c, memoryCopySystemToUser pcb src dst n mem = .ok c ∧
      ∀ a, ¬ pcb.Owns a → c.mem a = mem a := by
  obtain ⟨c, e, inside⟩ := (copiesInside_iff (s := src) mem h).mpr hc
  exact ⟨c, e, fun a ha => moveLoop_mem (by decide) h e fun chunk hmem touches =>
    ha (inside chunk hmem a touches)⟩

/-- Kernel copies stay inside the pages of the process, but for the page after its last one. -/
theorem copies_stay_inside_iff (h : pcb.Mapped) :
    (∀ addr, pcb.TranslatesInside addr ↔ ((addr.toNat / memoryPageSize : ℕ) = pcb.npages →
      pcb.named addr.toNat = 0)) ∧
    (∀ src dst n mem, pcb.CopiesInside (memoryCopySystemToUser pcb src dst n mem) ↔
      pcb.Harmless dst.toNat n) ∧
    ∀ src dst n mem, pcb.CopiesInside (memoryCopyUserToSystem pcb src dst n mem) ↔
      pcb.Harmless src.toNat n :=
  ⟨fun _ => translatesInside_iff h, fun _ _ _ _ => copiesInside_iff _ h,
    fun _ _ _ _ => copiesInside_iff _ h⟩

theorem copies_stay_inside_single : ∃ pcb : PCB, pcb.npages = 1 ∧ pcb.TranslatesInside 0xffff ∧
    ∀ src mem, pcb.CopiesInside (memoryCopySystemToUser pcb src 0xff00 0x100 mem) := by
  let pcb : PCB := ⟨0, 0, fun _ => memorySetupPte 5, 1⟩
  have h : pcb.Mapped := ⟨le_rfl, by decide, fun _ _ => ⟨5, rfl⟩⟩
  obtain ⟨translates, copies, -⟩ := copies_stay_inside_iff h
  refine ⟨pcb, rfl, (translates _).mpr ?_, fun src mem => (copies src _ _ mem).mpr ?_⟩
  · exact fun he => absurd he (by decide)
  · intro a ha hlt hpage
    change (a : ℤ) < 0xff00 + 0x100 at hlt
    change ((a / 65536 : ℕ) : ℤ) = 1 at hpage
    omega

/-- With all 16 entries in use, the page after the last one is read from the field `npages`, and
the kernel's own bytes at address 16 are reached. -/
theorem full_table_reaches_kernel : ¬ ∀ pcb : PCB, pcb.Mapped →
    (∀ addr, pcb.TranslatesInside addr) ∧
    (∀ src dst n mem, pcb.CopiesInside (memoryCopySystemToUser pcb src dst n mem)) ∧
    ∀ src dst n mem, pcb.CopiesInside (memoryCopyUserToSystem pcb src dst n mem) := by
  intro hall
  let pcb : PCB := ⟨0, 0, fun i => memorySetupPte (BitVec.ofNat 32 (i + 32)), 16⟩
  have h : pcb.Mapped := ⟨by decide, le_rfl, fun i _ => ⟨_, rfl⟩⟩
  obtain ⟨v, e, hv⟩ := (hall pcb h).1 0x100000
  have hv' : pcb.named (0x100000 : BitVec 32).toNat = 16 := by decide
  rw [translate_named h (by decide), hv'] at e
  obtain rfl : 16 = v := Except.ok.inj e
  obtain ⟨i, -, hi, -⟩ := hv (by decide)
  change 16 = (i : ℕ) at hi
  have := i.isLt
  unfold processMaxPages at this
  omega

end DlxOs.Memory
