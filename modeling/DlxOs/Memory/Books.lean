import DlxOs.Library.Sharing
import DlxOs.Memory.Allocator
import DlxOs.Memory.SharedPages
import Mathlib.Data.Fintype.Basic

/-!
# The books of the pages

The kernel keeps two books of its pages, the freemap and the table of shared
pages. They agree with a record of who holds which page when a page is free
exactly if nobody holds it, and the sharers in the table agree with the holders.
-/

namespace DlxOs.Memory

open Bitmaps Sharing
open Kernel (Halt PcbPtr ok_bind)

variable {s s' : Os} {p q : PcbPtr} {page r lo hi : ℕ} {i : Fin memoryMaxSharedPages}
  {bits : BitVec 32} {H : ℕ → Finset PcbPtr}

namespace Os

@[simp] theorem setEntry_self {e : SharedPage} : (s.setEntry i e).spages i = e := by
  simp [setEntry]

@[simp] theorem setEntry_of_ne {j : Fin memoryMaxSharedPages} {e : SharedPage} (h : j ≠ i) :
    (s.setEntry i e).spages j = s.spages j := by
  simp [setEntry, h]

@[simp] theorem setPcb_self {b : PCB} : (s.setPcb p b).pcbs p = b := by
  simp [setPcb]

@[simp] theorem setPcb_of_ne {b : PCB} (h : q ≠ p) : (s.setPcb p b).pcbs q = s.pcbs q := by
  simp [setPcb, h]

end Os

/-- The processes whose bits are set. -/
def sharersOf (bits : BitVec 32) : Finset PcbPtr :=
  Finset.univ.filter fun p => bits.getLsbD p = true

@[simp] theorem mem_sharersOf : p ∈ sharersOf bits ↔ bits.getLsbD p = true := by
  simp [sharersOf]

theorem getLsbD_pid (p q : PcbPtr) : (1#32 <<< q.val).getLsbD p = decide (p = q) := by
  rw [getLsbD_bit (show p.val < 32 from p.isLt)]
  exact decide_eq_decide.mpr Fin.ext_iff.symm

theorem sharersOf_zero : sharersOf 0 = ∅ := by
  ext p
  simp

theorem sharersOf_one : sharersOf (1#32 <<< q.val) = {q} := by
  ext p
  rw [mem_sharersOf, getLsbD_pid, Finset.mem_singleton, decide_eq_true_eq]

theorem sharersOf_or : sharersOf (bits ||| (1#32 <<< q.val)) = insert q (sharersOf bits) := by
  ext p
  rw [mem_sharersOf, BitVec.getLsbD_or, getLsbD_pid, Finset.mem_insert, mem_sharersOf,
    Bool.or_eq_true, decide_eq_true_eq, or_comm]

theorem sharersOf_and :
    sharersOf (bits &&& (1#32 <<< q.val ^^^ 0xffffffff#32)) = (sharersOf bits).erase q := by
  ext p
  have hp : (0xffffffff#32).getLsbD p = true := by
    rw [show 0xffffffff#32 = BitVec.allOnes 32 from rfl, BitVec.getLsbD_allOnes]
    exact decide_eq_true p.isLt
  rw [mem_sharersOf, BitVec.getLsbD_and, BitVec.getLsbD_xor, getLsbD_pid, hp, Finset.mem_erase,
    mem_sharersOf]
  cases bits.getLsbD p <;> simp

theorem countBits_eq_zero : countBits bits = 0 ↔ sharersOf bits = ∅ := by
  rw [countBits, List.countP_eq_zero, Finset.eq_empty_iff_forall_notMem]
  constructor
  · intro h p
    rw [mem_sharersOf]
    exact h p (List.mem_range.mpr p.isLt)
  · intro h b hb
    have := h ⟨b, List.mem_range.mp hb⟩
    rwa [mem_sharersOf] at this

/-- The processes that the table has for a page. -/
def Os.sharers (s : Os) (page : ℕ) : Finset PcbPtr :=
  match s.findEntry page with
  | none => ∅
  | some i => sharersOf (s.spages i).bits

theorem Os.findEntry_some (h : s.findEntry page = some i) : (s.spages i).page = page :=
  of_decide_eq_true (Fin.eq_true_of_find?_eq_some h)

theorem Os.findEntry_none (h : s.findEntry page = none) (i : Fin memoryMaxSharedPages) :
    (s.spages i).page ≠ page :=
  of_decide_eq_false (Fin.eq_false_of_find?_eq_none h i)

theorem Os.findEntry_isSome (h : (s.spages i).page = page) : ∃ j, s.findEntry page = some j := by
  cases hf : s.findEntry page with
  | none => exact absurd h (Os.findEntry_none hf i)
  | some j => exact ⟨j, rfl⟩

/-- The search depends on the page numbers of the entries only. -/
theorem Os.findEntry_congr (h : ∀ j, (s'.spages j).page = r ↔ (s.spages j).page = r) :
    s'.findEntry r = s.findEntry r := by
  have : (fun j => decide ((s'.spages j).page = r)) = fun j => decide ((s.spages j).page = r) :=
    funext fun j => decide_eq_decide.mpr (h j)
  unfold Os.findEntry
  rw [this]

theorem Os.sharers_of_some (h : s.findEntry page = some i) :
    s.sharers page = sharersOf (s.spages i).bits := by
  unfold Os.sharers
  rw [h]

theorem Os.sharers_of_none (h : s.findEntry page = none) : s.sharers page = ∅ := by
  unfold Os.sharers
  rw [h]

/-- New bits for the first entry of a page change its sharers, and those of no other page. -/
theorem Os.sharers_setBits (bits : BitVec 32) (h : s.findEntry page = some i) :
    (s.setEntry i ⟨page, bits⟩).sharers page = sharersOf bits ∧
      ∀ r ≠ page, (s.setEntry i ⟨page, bits⟩).sharers r = s.sharers r := by
  have hpage := Os.findEntry_some h
  have hfind : ∀ r, (s.setEntry i ⟨page, bits⟩).findEntry r = s.findEntry r := by
    intro r
    apply Os.findEntry_congr
    intro j
    rcases eq_or_ne j i with rfl | hne
    · rw [Os.setEntry_self, hpage]
    · rw [Os.setEntry_of_ne hne]
  constructor
  · rw [Os.sharers_of_some ((hfind page).trans h), Os.setEntry_self]
  · intro r hr
    cases hf : s.findEntry r with
    | none => rw [Os.sharers_of_none hf, Os.sharers_of_none ((hfind r).trans hf)]
    | some j =>
        have hne : j ≠ i := by
          rintro rfl
          exact hr ((Os.findEntry_some hf).symm.trans hpage)
        rw [Os.sharers_of_some ((hfind r).trans hf), Os.sharers_of_some hf, Os.setEntry_of_ne hne]

/-- An entry that is filled in for a page gives it these sharers, or is not the first for it. -/
theorem Os.sharers_fill (bits : BitVec 32) (h : s.findEntry 0 = some i) (hpage : page ≠ 0) :
    ((s.setEntry i ⟨page, bits⟩).sharers page = sharersOf bits ∨
      (s.setEntry i ⟨page, bits⟩).sharers page = s.sharers page) ∧
      ∀ r ≠ 0, r ≠ page → (s.setEntry i ⟨page, bits⟩).sharers r = s.sharers r := by
  have hzero := Os.findEntry_some h
  constructor
  · obtain ⟨j, hj⟩ := Os.findEntry_isSome (s := s.setEntry i ⟨page, bits⟩) (i := i)
      (congrArg SharedPage.page Os.setEntry_self)
    rcases eq_or_ne j i with rfl | hne
    · left
      rw [Os.sharers_of_some hj, Os.setEntry_self]
    · right
      have hfirst := Fin.find?_eq_some_iff.mp hj
      have hs : s.findEntry page = some j := by
        refine Fin.find?_eq_some_iff.mpr ⟨?_, fun k hk => ?_⟩
        · have := hfirst.1
          rwa [Os.setEntry_of_ne hne] at this
        · rcases eq_or_ne k i with rfl | hki
          · exact decide_eq_false (hzero ▸ hpage.symm)
          · have := hfirst.2 k hk
            rwa [Os.setEntry_of_ne hki] at this
      rw [Os.sharers_of_some hj, Os.sharers_of_some hs, Os.setEntry_of_ne hne]
  · intro r hr hrp
    have hfind : (s.setEntry i ⟨page, bits⟩).findEntry r = s.findEntry r := by
      apply Os.findEntry_congr
      intro j
      rcases eq_or_ne j i with rfl | hne
      · rw [Os.setEntry_self, hzero]
        exact iff_of_false hrp.symm hr.symm
      · rw [Os.setEntry_of_ne hne]
    cases hf : s.findEntry r with
    | none => rw [Os.sharers_of_none hf, Os.sharers_of_none (hfind.trans hf)]
    | some j =>
        have hne : j ≠ i := by
          rintro rfl
          exact hr ((Os.findEntry_some hf).symm.trans hzero)
        rw [Os.sharers_of_some (hfind.trans hf), Os.sharers_of_some hf, Os.setEntry_of_ne hne]

theorem Os.sharers_congr (h : s'.spages = s.spages) : s'.sharers r = s.sharers r := by
  have hfind : s'.findEntry r = s.findEntry r := Os.findEntry_congr fun j => by rw [h]
  unfold Os.sharers
  rw [hfind, h]

/-- The books agree with the holders `H` of the pages from `lo` up to `hi`. -/
structure Books (s : Os) (lo hi : ℕ) (H : ℕ → Finset PcbPtr) : Prop where
  sound : s.freemap.Sound lo hi
  free : ∀ page ∈ Finset.Ico lo hi, page ∈ s.freemap.free ↔ H page = ∅
  agrees : ∀ page ∈ Finset.Ico lo hi, Agrees (H page) (s.sharers page)
  held : ∀ page, H page ≠ ∅ → page ∈ Finset.Ico lo hi
  entries : ∀ i, (s.spages i).page ≠ 0 → (s.spages i).page ∈ Finset.Ico lo hi
  frees : ∀ f ∈ s.frees, f.wasFree = false

namespace Books

theorem mem_Ico (h : Books s lo hi H) (hq : q ∈ H page) : page ∈ Finset.Ico lo hi :=
  h.held page (Finset.ne_empty_of_mem hq)

/-- The books do not depend on the PCBs. -/
theorem congr (h : Books s lo hi H) (hmap : s'.freemap = s.freemap) (hs : s'.spages = s.spages)
    (hf : s'.frees = s.frees) : Books s' lo hi H where
  sound := hmap ▸ h.sound
  free := hmap ▸ h.free
  agrees page hp := by
    rw [Os.sharers_congr hs]
    exact h.agrees page hp
  held := h.held
  entries := hs ▸ h.entries
  frees := hf ▸ h.frees

theorem setPcb (h : Books s lo hi H) (b : PCB) : Books (s.setPcb p b) lo hi H :=
  h.congr rfl rfl rfl

/-- A page that is handed out had no holder, and has one now. -/
theorem allocPage (h : Books s lo hi H) (q : PcbPtr) (hlo : 0 < lo) :
    s.allocPage = .ok (0, s) ∨
    ∃ page m, s.allocPage = .ok (page, { s with freemap := m }) ∧ page ∈ Finset.Ico lo hi ∧
      page ≠ 0 ∧ H page = ∅ ∧ s.sharers page = ∅ ∧
      Books { s with freemap := m } lo hi (Function.update H page {q}) := by
  rcases eq_or_ne s.freemap.free ∅ with he | hne
  · left
    unfold Os.allocPage
    rw [memoryAllocPage_none h.sound he]
    rfl
  · right
    obtain ⟨page, m, e, hmem, hfree, sound⟩ := h.sound.allocPage hne
    have hIco := h.sound.range hmem
    have hempty := (h.free page hIco).mp hmem
    have hsharers : s.sharers page = ∅ := (hempty ▸ h.agrees page hIco).of_empty
    refine ⟨page, m, ?_, hIco, ?_, hempty, hsharers, sound, ?_, ?_, ?_, h.entries, h.frees⟩
    · unfold Os.allocPage
      rw [e]
      rfl
    · have := Finset.mem_Ico.mp hIco
      omega
    · intro r hr
      rw [hfree, Finset.mem_erase]
      rcases eq_or_ne r page with rfl | hrp
      · simp
      · rw [Function.update_of_ne hrp, ← h.free r hr]
        exact and_iff_right hrp
    · intro r hr
      rw [show Os.sharers { s with freemap := m } r = s.sharers r from Os.sharers_congr rfl]
      rcases eq_or_ne r page with rfl | hrp
      · rw [Function.update_self, hsharers]
        exact .single
      · rw [Function.update_of_ne hrp]
        exact h.agrees r hr
    · intro r hr
      rcases eq_or_ne r page with rfl | hrp
      · exact hIco
      · rw [Function.update_of_ne hrp] at hr
        exact h.held r hr

theorem allocated (h : Books s lo hi H) (q : PcbPtr) (hlo : 0 < lo) {m : Freemap}
    (e : memoryAllocPage s.freemap = .ok (page, m)) (hne : page ≠ 0) :
    (H page = ∅ ∧ s.sharers page = ∅) ∧
      Books { s with freemap := m } lo hi (Function.update H page {q}) := by
  have ea : s.allocPage = .ok (page, { s with freemap := m }) := by
    unfold Os.allocPage
    rw [e]
    rfl
  rcases h.allocPage q hlo with e' | ⟨page', m', e', -, -, hempty, hsharers, hb⟩
  · obtain ⟨rfl, -⟩ := Prod.mk.inj (Except.ok.inj (ea.symm.trans e'))
    exact absurd rfl hne
  · obtain ⟨rfl, hm⟩ := Prod.mk.inj (Except.ok.inj (ea.symm.trans e'))
    obtain rfl : m = m' := congrArg Os.freemap hm
    exact ⟨⟨hempty, hsharers⟩, hb⟩

/-- A page that the table has for nobody is freed when its holder leaves it. -/
theorem freePage (h : Books s lo hi H) (page : ℕ) (hq : q ∈ H page) (hs : s.sharers page = ∅) :
    ∃ m f, s.freePage page = .ok { s with freemap := m, frees := f } ∧
      Books { s with freemap := m, frees := f } lo hi (drop H q page) := by
  have hIco := h.mem_Ico hq
  have hrange := Finset.mem_Ico.mp hIco
  have hnot : page ∉ s.freemap.free := fun hf =>
    Finset.ne_empty_of_mem hq ((h.free page hIco).mp hf)
  have hlast : (H page).erase q = ∅ := (hs ▸ h.agrees page hIco).alone hq
  obtain ⟨m, e, hfree, sound⟩ := h.sound.freePage hrange.1 hrange.2 hnot
  refine ⟨m, s.frees ++ [⟨page, false⟩], ?_, sound, ?_, ?_, ?_, h.entries, ?_⟩
  · have hset : isSet s.freemap.freepages page = false := by
      rw [← Bool.not_eq_true, ← mem_numbers]
      exact hnot
    unfold Os.freePage
    rw [e, hset]
    rfl
  · intro r hr
    rw [hfree, Finset.mem_insert]
    rcases eq_or_ne r page with rfl | hrp
    · rw [drop_self, hlast]
      simp
    · rw [drop_of_ne hrp, ← h.free r hr]
      exact or_iff_right hrp
  · intro r hr
    rw [show Os.sharers { s with freemap := m, frees := s.frees ++ [⟨page, false⟩] } r =
      s.sharers r from Os.sharers_congr rfl]
    rcases eq_or_ne r page with rfl | hrp
    · rw [drop_self, hlast, hs]
      exact .inl rfl
    · rw [drop_of_ne hrp]
      exact h.agrees r hr
  · intro r hr
    rcases eq_or_ne r page with rfl | hrp
    · exact hIco
    · rw [drop_of_ne hrp] at hr
      exact h.held r hr
  · intro f hf
    rcases List.mem_append.mp hf with hf | hf
    · exact h.frees f hf
    · rw [List.mem_singleton.mp hf]

end Books

end DlxOs.Memory
