import DlxOs.Memory.Owners

/-!
# The calls that map shared pages

`shmget` fills in an entry of the table and maps its page. `shmat` maps the page
of the first entry with the handle. The entry may be one whose last process is
gone, and then the page that it names is not one in use.
-/

namespace DlxOs.Memory

open Sharing
open Kernel (Halt PcbPtr ok_bind)

variable {s s' : Os} {p q : PcbPtr} {page r lo hi j n : ℕ} {i : Fin memoryMaxSharedPages}
  {H : ℕ → Finset PcbPtr} {b : PCB} {bits handle handle' : BitVec 32}

theorem sharersOf_eq_empty : sharersOf bits = ∅ ↔ bits = 0 := by
  constructor
  · intro h
    apply BitVec.eq_of_getLsbD_eq
    intro b hb
    have hnot : (⟨b, hb⟩ : PcbPtr) ∉ sharersOf bits := h ▸ Finset.notMem_empty _
    simpa using hnot
  · rintro rfl
    exact sharersOf_zero

/-- New bits keep the pages that the table has. -/
theorem Os.shared_setBits (h : s.findEntry page = some i) :
    (s.setEntry i ⟨page, bits⟩).shared r = s.shared r := by
  have hfind : (s.setEntry i ⟨page, bits⟩).findEntry r = s.findEntry r := by
    apply Os.findEntry_congr
    intro j
    rcases eq_or_ne j i with rfl | hne
    · rw [Os.setEntry_self, Os.findEntry_some h]
    · rw [Os.setEntry_of_ne hne]
  unfold Os.shared
  rw [hfind]

/-- A process joins the sharers of a page that somebody shares. -/
theorem Books.join (h : Books s lo hi H) (he : s.findEntry page = some i) (hpage : page ≠ 0)
    (hbits : (s.spages i).bits ≠ 0) (p : PcbPtr) :
    H page ≠ ∅ ∧ Books (s.setEntry i ⟨page, (s.spages i).bits ||| (1#32 <<< p.val)⟩) lo hi
      (Function.update H page (insert p (H page))) := by
  let bits := (s.spages i).bits ||| (1#32 <<< p.val)
  obtain ⟨hself, hother⟩ := Os.sharers_setBits bits he
  have hfirst := Os.findEntry_some he
  have hIco : page ∈ Finset.Ico lo hi := hfirst ▸ h.entries i (hfirst ▸ hpage)
  have hsome : s.sharers page ≠ ∅ := by
    rw [Os.sharers_of_some he, Ne, sharersOf_eq_empty]
    exact hbits
  have hheld : H page ≠ ∅ := (h.agrees page hIco).eq hsome ▸ hsome
  refine ⟨hheld, h.sound, fun r hr => ?_, fun r hr => ?_, fun r hr => ?_, fun j hj => ?_, h.frees⟩
  · rcases eq_or_ne r page with rfl | hrp
    · rw [Function.update_self]
      exact iff_of_false (fun hf => hheld ((h.free r hr).mp hf)) (Finset.insert_ne_empty _ _)
    · rw [Function.update_of_ne hrp]
      exact h.free r hr
  · rcases eq_or_ne r page with rfl | hrp
    · rw [Function.update_self, hself, sharersOf_or, ← Os.sharers_of_some he]
      exact (h.agrees r hr).join hsome
    · rw [Function.update_of_ne hrp, hother r hrp]
      exact h.agrees r hr
  · rcases eq_or_ne r page with rfl | hrp
    · exact hIco
    · rw [Function.update_of_ne hrp] at hr
      exact h.held r hr
  · rcases eq_or_ne j i with rfl | hne
    · rw [Os.setEntry_self]
      exact hIco
    · rw [Os.setEntry_of_ne hne] at hj ⊢
      exact h.entries j hj

/-- The search stops at the first entry with the frame, or after the last one. -/
theorem findPte_spec (b : PCB) (handle : BitVec 32) (hn : j + n ≤ processMaxPages + 1) :
    ∃ k, findPte b handle n j = .ok k ∧ j ≤ k ∧ k ≤ j + n ∧
      (k < j + n → b.wordAt k &&& memoryPteMask = handle) ∧
      ∀ l, j ≤ l → l < k → b.wordAt l &&& memoryPteMask ≠ handle := by
  induction n generalizing j with
  | zero => exact ⟨j, rfl, le_rfl, le_rfl, fun h => absurd h (lt_irrefl _), by omega⟩
  | succ n ih =>
      unfold findPte
      rw [PCB.entry_eq (by omega), ok_bind]
      by_cases hm : b.wordAt j &&& memoryPteMask = handle
      · rw [if_pos hm]
        exact ⟨j, rfl, le_rfl, by omega, fun _ => hm, by omega⟩
      · rw [if_neg hm]
        obtain ⟨k, e, hle, hge, hat, hbefore⟩ := ih (j := j + 1) (by omega)
        refine ⟨k, e, by omega, by omega, fun hk => hat (by omega), fun l hl hlk => ?_⟩
        rcases eq_or_lt_of_le hl with rfl | hl
        · exact hm
        · exact hbefore l hl hlk

/-- The page table has no room left, and no entry for the handle. -/
def PCB.NoRoom (b : PCB) (handle : BitVec 32) : Prop :=
  b.npages = 16 ∧ ∀ j < 16, b.wordAt j &&& memoryPteMask ≠ handle <<< 16

instance (b : PCB) (handle : BitVec 32) : Decidable (b.NoRoom handle) :=
  inferInstanceAs (Decidable (_ ∧ _))

/-- Without room `shmat` maps nothing. -/
theorem mmap_noRoom (h : (s.pcbs p).NoRoom handle) : mmap s p handle = .ok (0, s) := by
  obtain ⟨hnpages, hnone⟩ := h
  unfold mmap
  split
  · rfl
  split
  · rfl
  obtain ⟨k, ek, -, hle, hat, -⟩ := findPte_spec (s.pcbs p) (handle <<< 16) (j := 0) (n := 16)
    (by decide)
  have hk : k = 16 := by
    by_contra hne
    exact hnone k (by omega) (hat (by omega))
  unfold mmapEntry
  rw [hk] at ek
  simp only [hnpages, show Int.toNat 16 = 16 from rfl, ek, ok_bind]
  rfl

/-- An entry that was set up has the frame of a handle. -/
theorem setupPte_mask_iff {word : BitVec 32} (hw : word = memorySetupPte handle')
    (hlt : handle.toNat < memoryPageSize) :
    word &&& memoryPteMask = handle <<< 16 ↔ word.toNat / memoryPageSize = handle.toNat := by
  have hshift : (handle <<< 16).toNat = handle.toNat * memoryPageSize := by
    rw [BitVec.toNat_shiftLeft, Nat.shiftLeft_eq]
    unfold memoryPageSize at *
    omega
  rw [hw, setupPte_mask, ← BitVec.toNat_inj, setupPte_toNat, hshift, setupPte_frame]
  exact Nat.mul_left_inj (by decide)

/-- A table entry and a page table entry are written in either order. -/
theorem Os.appendPte_setEntry {e : SharedPage} {pte : BitVec 32} (h : s.appendPte p pte = .ok s') :
    s'.spages = s.spages ∧ (s.setEntry i e).appendPte p pte = .ok (s'.setEntry i e) := by
  unfold Os.appendPte at *
  simp only at h
  split at h
  · obtain rfl := Except.ok.inj h
    refine ⟨rfl, ?_⟩
    rw [dif_pos (by assumption)]
    rfl
  · cases h

/-- No system stack is on a page that somebody shares. -/
theorem Os.Inv.stack_ne (h : s.Inv lo hi) (hq : s.Live q) (he : s.findEntry page = some i)
    (hbits : (s.spages i).bits ≠ 0) : (s.pcbs q).stackPage ≠ page := by
  rintro rfl
  have hstack := (h.furnished q hq).stack
  rw [Os.sharers_of_some he, sharersOf_eq_empty] at hstack
  exact hbits hstack

/-- A process that has the page already is put down as one of its sharers. -/
theorem Os.Inv.share (h : s.Inv lo hi) (hp : p ∈ s.owners page) (he : s.findEntry page = some i)
    (hpage : page ≠ 0) (hbits : (s.spages i).bits ≠ 0) :
    (s.setEntry i ⟨page, (s.spages i).bits ||| (1#32 <<< p.val)⟩).Inv lo hi := by
  obtain ⟨hheld, hb⟩ := h.books.join he hpage hbits p
  rw [Finset.insert_eq_of_mem hp, Function.update_eq_self] at hb
  have hother := (Os.sharers_setBits ((s.spages i).bits ||| (1#32 <<< p.val)) he).2
  refine ⟨hb, fun q hq => (h.furnished q hq).congr rfl (fun r _ hr => ?_) ?_⟩
  · rwa [Os.shared_setBits he]
  · rw [hother _ (h.stack_ne hq he hbits)]
    exact (h.furnished q hq).stack

/-- `shmat` keeps the books when somebody still shares the page. -/
theorem Os.Inv.mmapEntry (h : s.Inv lo hi) (hlo : 0 < lo) (hp : s.Live p) {rv : BitVec 32}
    (he : s.findEntry handle.toNat = some i) (hne : handle.toNat ≠ 0)
    (hbits : (s.spages i).bits ≠ 0) (e : mmapEntry s p handle i = .ok (rv, s')) :
    s'.Inv lo hi := by
  have hfur := h.furnished p hp
  have hone := hfur.one_le
  have hmax := hfur.le_max
  have hpmax : processMaxPages = 16 := rfl
  obtain ⟨hheld, hb⟩ := h.books.join he hne hbits p
  have hfirst := Os.findEntry_some he
  have hlt : handle.toNat < memoryPageSize :=
    h.books.sound.lt_max (Finset.mem_Ico.mp (h.books.held _ hheld)).2
  obtain ⟨k, ek, -, hk, hat, hbefore⟩ := findPte_spec (s.pcbs p) (handle <<< 16)
    (j := 0) (n := (s.pcbs p).npages.toNat) (by omega)
  have hframe : ∀ l < (s.pcbs p).npages.toNat,
      ((s.pcbs p).wordAt l &&& memoryPteMask = handle <<< 16 ↔
        (s.pcbs p).frame l = handle.toNat) := by
    intro l hl
    obtain ⟨pg, hpg⟩ := hfur.setup l hl
    exact setupPte_mask_iff hpg hlt
  unfold Memory.mmapEntry at e
  simp only [ek, ok_bind] at e
  by_cases hkn : (k : ℤ) = (s.pcbs p).npages
  · rw [if_pos hkn] at e
    by_cases h15 : (s.pcbs p).npages ≤ 15
    · rw [if_pos h15] at e
      have hnew : handle.toNat ∉ (s.pcbs p).pages := by
        intro hm
        rcases List.mem_append.mp hm with hm | hm
        · obtain ⟨l, hl, hlp⟩ := List.mem_map.mp hm
          have hl := (List.mem_range'_1.mp hl).2
          exact hbefore l (Nat.zero_le l) (by omega) ((hframe l (by omega)).mpr hlp)
        · exact h.stack_ne hp he hbits (List.mem_singleton.mp hm).symm
      cases ea : s.appendPte p (memorySetupPte handle) with
      | error halt =>
          rw [ea] at e
          cases e
      | ok t =>
          rw [ea, ok_bind] at e
          obtain rfl := (Prod.mk.inj (Except.ok.inj e)).2
          let entry : SharedPage := ⟨handle.toNat, (s.spages i).bits ||| (1#32 <<< p.val)⟩
          have hpcbs : (s.setEntry i entry).pcbs = s.pcbs := rfl
          obtain ⟨hspages, eb⟩ := Os.appendPte_setEntry (i := i) (e := entry) ea
          obtain ⟨t', et, hinv⟩ := h.map hlo hp h15 hnew hpcbs hb
            (fun r _ hr => by rwa [Os.shared_setBits he])
            (by
              rw [Os.shared_setBits he, Os.shared, he]
              rfl)
            (fun q hq => by
              rw [(Os.sharers_setBits _ he).2 _ (h.stack_ne hq he hbits)]
              exact (h.furnished q hq).stack)
          rw [BitVec.ofNat_toNat, BitVec.setWidth_eq, eb] at et
          rw [hspages, hfirst, Except.ok.inj et]
          exact hinv
    · rw [if_neg h15] at e
      cases e
      exact h
  · rw [if_neg hkn] at e
    obtain rfl := (Prod.mk.inj (Except.ok.inj e)).2
    rw [hfirst]
    refine h.share (Os.mem_owners.mpr ⟨hp, ?_⟩) he hne hbits
    have hk' : k < (s.pcbs p).npages.toNat := by omega
    rw [← (hframe k hk').mp (hat (by omega))]
    exact PCB.frame_mem hk'

/-- `shmat` keeps the books unless its entry is one that nobody shares any more. -/
theorem Os.Inv.mmap (h : s.Inv lo hi) (hlo : 0 < lo) (hp : s.Live p) {rv : BitVec 32}
    (hbits : ∀ i, handle ≠ 0 → s.findEntry handle.toNat = some i → (s.spages i).bits ≠ 0)
    (e : mmap s p handle = .ok (rv, s')) : s'.Inv lo hi := by
  unfold Memory.mmap at e
  by_cases hz : handle = 0
  · rw [if_pos hz] at e
    cases e
    exact h
  · rw [if_neg hz] at e
    cases he : s.findEntry handle.toNat with
    | none =>
        rw [he] at e
        cases e
        exact h
    | some i =>
        rw [he] at e
        refine h.mmapEntry hlo hp he (fun hn => hz ?_) (hbits i hz he) e
        exact BitVec.eq_of_toNat_eq hn

/-- An entry that is filled in for a new page keeps the pages that the table has. -/
theorem Os.shared_fill (bits : BitVec 32) (page : ℕ) (h : s.findEntry 0 = some i) :
    (s.setEntry i ⟨page, bits⟩).shared page = true ∧
      ∀ r ≠ 0, s.shared r = true → (s.setEntry i ⟨page, bits⟩).shared r = true := by
  have hshared : ∀ {s : Os} {j r}, (s.spages j).page = r → s.shared r = true := by
    intro s j r hj
    exact Option.isSome_iff_exists.mpr (Os.findEntry_isSome hj)
  refine ⟨hshared (j := i) (congrArg SharedPage.page Os.setEntry_self), fun r hr hs => ?_⟩
  obtain ⟨j, hj⟩ := Option.isSome_iff_exists.mp hs
  have hpage := Os.findEntry_some hj
  have hne : j ≠ i := by
    rintro rfl
    exact hr (hpage.symm.trans (Os.findEntry_some h))
  refine hshared (j := j) ?_
  rw [Os.setEntry_of_ne hne, hpage]

/-- An entry that is filled in for a new page of a process. -/
theorem Books.fill (h : Books s lo hi H) (hlo : 0 < lo) (he : s.findEntry 0 = some i)
    (hIco : page ∈ Finset.Ico lo hi) (hp : H page = {p}) :
    Books (s.setEntry i ⟨page, 1#32 <<< p.val⟩) lo hi H := by
  have hpage : page ≠ 0 := by
    have := Finset.mem_Ico.mp hIco
    omega
  obtain ⟨hself, hother⟩ := Os.sharers_fill (1#32 <<< p.val) he hpage
  refine ⟨h.sound, h.free, fun r hr => ?_, h.held, fun j hj => ?_, h.frees⟩
  · rcases eq_or_ne r page with rfl | hrp
    · rcases hself with hs | hs
      · rw [hs, hp, sharersOf_one]
        exact .inl rfl
      · rw [hs]
        exact h.agrees r hr
    · have := Finset.mem_Ico.mp hr
      rw [hother r (by omega) hrp]
      exact h.agrees r hr
  · rcases eq_or_ne j i with rfl | hne
    · rw [Os.setEntry_self]
      exact hIco
    · rw [Os.setEntry_of_ne hne] at hj ⊢
      exact h.entries j hj

/-- `shmget` keeps the books. -/
theorem Os.Inv.createSharedPage (h : s.Inv lo hi) (hlo : 0 < lo) (hp : s.Live p)
    (e : memoryCreateSharedPage s p = .ok (r, s')) : s'.Inv lo hi := by
  unfold memoryCreateSharedPage at e
  by_cases h16 : (s.pcbs p).npages = 16
  · rw [if_pos h16] at e
    cases e
    exact h
  rw [if_neg h16] at e
  cases he : s.findEntry 0 with
  | none =>
      rw [he] at e
      cases e
      exact h
  | some i =>
      simp only [he] at e
      rcases h.books.allocPage p hlo with ea | ⟨page, m, ea, hIco, hz, howners, hsharers, hb⟩
      · rw [ea, ok_bind] at e
        cases e
      · rw [ea, ok_bind] at e
        simp only [if_neg hz] at e
        have hle : (s.pcbs p).npages ≤ 15 := by
          have := (h.furnished p hp).le_max
          unfold processMaxPages at this
          omega
        have hnone : ∀ q, s.Live q → page ∉ (s.pcbs q).pages := fun q hq hm =>
          Finset.notMem_empty q (howners ▸ Os.mem_owners.mpr ⟨hq, hm⟩)
        let entry : SharedPage := ⟨page, 1#32 <<< p.val⟩
        let s₁ : Os := ({ s with freemap := m } : Os).setEntry i entry
        have hpcbs : s₁.pcbs = s.pcbs := rfl
        have hfill : Books s₁ lo hi (Function.update s.owners page (insert p (s.owners page))) := by
          rw [howners, insert_empty_eq]
          exact hb.fill hlo he hIco (Function.update_self _ _ _)
        obtain ⟨hpage, hshared⟩ := Os.shared_fill (1#32 <<< p.val) page he
        obtain ⟨t, et, hinv⟩ := h.map hlo hp hle (hnone p hp) hpcbs hfill hshared hpage
          fun q hq => by
            have hne : (s.pcbs q).stackPage ≠ page := fun hn =>
              hnone q hq (hn ▸ List.mem_append_right _ (List.mem_singleton_self _))
            have hzero : (s.pcbs q).stackPage ≠ 0 :=
              h.ne_zero hlo hq (List.mem_append_right _ (List.mem_singleton_self _))
            exact ((Os.sharers_fill _ he hz).2 _ hzero hne).trans (h.furnished q hq).stack
        rw [et, ok_bind] at e
        rw [← (Prod.mk.inj (Except.ok.inj e)).2]
        exact hinv

end DlxOs.Memory
