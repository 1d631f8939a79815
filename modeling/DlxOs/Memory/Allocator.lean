import DlxOs.Library.Transition
import DlxOs.Memory.Pages
import Mathlib.Order.Interval.Finset.Nat

/-!
# The page allocator

The free pages are the numbers in `freepages`. Each routine of the allocator is
described by what it does to that set, and the count of free pages is its size.
-/

namespace DlxOs.Memory

open Bitmaps Transition
open Kernel (Halt ok_bind)

variable {m m' : Freemap} {p lo hi : ℕ}

/-- The pages whose bits are set in `freepages`. -/
def Freemap.free (m : Freemap) : Finset ℕ := numbers m.freepages

theorem Freemap.free_lt (h : p ∈ m.free) : p < memoryMaxPages := isSet_lt (mem_numbers.mp h)

theorem invert_bit {b c : ℕ} (hc : c < 32) :
    (invert (1#32 <<< b)).getLsbD c = !decide (c = b) := by
  rw [invert, BitVec.getLsbD_xor, getLsbD_bit hc]
  have : negativeone.getLsbD c = true := by
    rw [show negativeone = BitVec.allOnes 32 from rfl, BitVec.getLsbD_allOnes]
    exact decide_eq_true hc
  rw [this, Bool.xor_true]

theorem toNat_ofInt {k : ℕ} (hk : k < 2 ^ 32) : (BitVec.ofInt 32 k).toNat = k := by
  rw [BitVec.ofInt_natCast, BitVec.toNat_ofNat, Nat.mod_eq_of_lt hk]

theorem toInt_ofInt {k : ℕ} (hk : k < 2 ^ 31) : (BitVec.ofInt 32 k).toInt = k := by
  have h := toNat_ofInt (show k < 2 ^ 32 by omega)
  rw [BitVec.toInt_eq_toNat_of_lt (by rw [h]; omega), h]

/-- A page that is marked free is in the freemap afterwards. -/
theorem memorySetFreemap_spec (hp : p < memoryMaxPages) :
    ∃ f, memorySetFreemap m p 1 = .ok { m with freepages := f } ∧ numbers f = insert p m.free := by
  have hw : p / 32 < memoryMaxPages / 32 := by
    unfold memoryMaxPages at hp ⊢
    omega
  have hwd : (BitVec.ofInt 32 ((p : ℤ).tdiv 32)).toNat = p / 32 := by
    rw [show (p : ℤ).tdiv 32 = (p / 32 : ℕ) from (Int.ofNat_tdiv p 32).symm]
    exact toNat_ofInt (by unfold memoryMaxPages at hp; omega)
  have hbit : (BitVec.ofInt 32 ((p : ℤ).tmod 32)).toNat = p % 32 := by
    rw [show (p : ℤ).tmod 32 = (p % 32 : ℕ) from (Int.ofNat_tmod p 32).symm]
    exact toNat_ofInt (by omega)
  let i : Fin (memoryMaxPages / 32) := ⟨p / 32, hw⟩
  refine ⟨Function.update m.freepages i
    ((m.freepages i &&& invert (1#32 <<< (p % 32))) ||| (1#32 <<< (p % 32))), ?_, ?_⟩
  · unfold memorySetFreemap
    simp only [hwd, hbit]
    rw [dif_pos hw]
    rfl
  · rw [numbers_set (Nat.mod_lt p (by omega)) fun c hc => ?_]
    · exact congrArg (insert · m.free) (Nat.div_add_mod' p 32)
    · rw [BitVec.getLsbD_or, BitVec.getLsbD_and, invert_bit hc, getLsbD_bit hc]
      cases decide (c = p % 32) <;> simp

/-- The allocator manages the pages from `lo` up to `hi`. -/
structure Freemap.Sound (m : Freemap) (lo hi : ℕ) : Prop where
  count : m.nfreepages = m.free.card
  range : m.free ⊆ Finset.Ico lo hi
  covers : (hi : ℤ) ≤ m.freemapmax * 32
  words : m.freemapmax ≤ (memoryMaxPages / 32 : ℕ)
  cursor : m.mapnum = 0 ∨ (m.mapnum : ℤ) < m.freemapmax
  start : m.pagestart.toNat = lo

namespace Freemap.Sound

theorem lt_max (h : m.Sound lo hi) (hp : p < hi) : p < memoryMaxPages := by
  have := h.covers
  have := h.words
  unfold memoryMaxPages at *
  omega

theorem cursor_lt (h : m.Sound lo hi) (hne : m.free ≠ ∅) : m.mapnum < m.freemapmax.toNat := by
  obtain ⟨p, hp⟩ := Finset.nonempty_iff_ne_empty.mpr hne
  have := Finset.mem_Ico.mp (h.range hp)
  have := h.covers
  rcases h.cursor with h | h <;> omega

end Freemap.Sound

/-- A page that is given back is free. -/
theorem memoryFreePage_spec (h : m.Sound lo hi) (hhi : p < hi) :
    ∃ f n, memoryFreePage m p = .ok { m with freepages := f, nfreepages := n } ∧
      numbers f = insert p m.free ∧ n = m.nfreepages + 1 := by
  obtain ⟨f, e, hf⟩ := memorySetFreemap_spec (m := m) (h.lt_max hhi)
  refine ⟨f, m.nfreepages + 1, ?_, hf, rfl⟩
  unfold memoryFreePage
  rw [e]
  rfl

/-- Giving back a page that is in use keeps the allocator sound. -/
theorem Freemap.Sound.freePage (h : m.Sound lo hi) (hlo : lo ≤ p) (hhi : p < hi)
    (hp : p ∉ m.free) :
    ∃ m', memoryFreePage m p = .ok m' ∧ m'.free = insert p m.free ∧ m'.Sound lo hi := by
  obtain ⟨f, n, e, hf, rfl⟩ := memoryFreePage_spec h hhi
  refine ⟨_, e, hf, ?_, ?_, h.covers, h.words, h.cursor, h.start⟩
  · change m.nfreepages + 1 = ((numbers f).card : ℤ)
    rw [hf, Finset.card_insert_of_notMem hp, h.count, Nat.cast_succ]
  · change numbers f ⊆ _
    rw [hf, Finset.insert_subset_iff]
    exact ⟨Finset.mem_Ico.mpr ⟨hlo, hhi⟩, h.range⟩

/-- The cyclic search finds a word that is not zero. -/
theorem nextMap_spec {f : Fin (memoryMaxPages / 32) → BitVec 32} {size : ℤ}
    (hsize : size ≤ (memoryMaxPages / 32 : ℕ)) {i : Fin (memoryMaxPages / 32)}
    (hi : (i : ℤ) < size) (hf : f i ≠ 0) {fuel mapnum : ℕ} (hm : mapnum < size.toNat)
    (hfuel : ahead size.toNat mapnum i < fuel) :
    ∃ j : Fin (memoryMaxPages / 32), nextMap f size fuel mapnum = .ok j ∧ (j : ℤ) < size ∧
      f j ≠ 0 := by
  induction fuel generalizing mapnum with
  | zero => omega
  | succ fuel ih =>
      have hlt : mapnum < memoryMaxPages / 32 := by omega
      unfold nextMap
      rw [dif_pos hlt]
      split
      · next hz =>
          have hne : mapnum ≠ i := fun he => hf (by
            rw [← hz]
            exact congrArg f (Fin.ext he.symm))
          have hstep := ahead_next hm (show (i : ℕ) < size.toNat by omega) hne
          rw [show (if (mapnum + 1 : ℤ) ≥ size then 0 else mapnum + 1) = next size.toNat mapnum by
            unfold next
            split <;> split <;> omega]
          exact ih (next_lt hm) (by omega)
      · next hz => exact ⟨⟨mapnum, hlt⟩, rfl, by simp; omega, hz⟩

theorem memoryAllocPage_none (h : m.Sound lo hi) (he : m.free = ∅) :
    memoryAllocPage m = .ok (0, m) := by
  have : m.nfreepages = 0 := by rw [h.count, he]; rfl
  unfold memoryAllocPage
  rw [if_pos this]
  rfl

/-- As long as a page is free, both searches end, at a bit that is set. -/
theorem Freemap.Sound.search (h : m.Sound lo hi) (hne : m.free ≠ ∅) :
    ∃ (i : Fin (memoryMaxPages / 32)) (b : ℕ),
      nextMap m.freepages m.freemapmax (memoryMaxPages / 32) m.mapnum = .ok i ∧
      firstBit (m.freepages i) 32 0 = some b ∧ (i : ℤ) < m.freemapmax ∧ b < 32 ∧
      i * 32 + b ∈ m.free := by
  have hcur := h.cursor_lt hne
  have hwords := h.words
  obtain ⟨q, hq⟩ := Finset.nonempty_iff_ne_empty.mpr hne
  obtain ⟨j, c, hc, rfl, hv⟩ := exists_word hq
  have hj : (j : ℤ) < m.freemapmax := by
    have := h.covers
    have := Finset.mem_Ico.mp (h.range hq)
    omega
  have hz : m.freepages j ≠ 0 := fun hz => by simp [hz] at hv
  have hlt : ahead m.freemapmax.toNat m.mapnum j < memoryMaxPages / 32 :=
    (ahead_lt hcur (by omega)).trans_le (by omega)
  obtain ⟨i, hi, hilt, hiz⟩ := nextMap_spec hwords hj hz hcur hlt
  obtain ⟨c, hc, hcv⟩ := exists_bit hiz
  obtain ⟨b, hb, hfirst, hbv⟩ : ∃ b < 32, firstBit (m.freepages i) 32 0 = some b ∧
      (m.freepages i).getLsbD b = true :=
    firstBit_spec ⟨c, Nat.zero_le c, hc, hcv⟩ (Nat.le_add_left 32 0)
  exact ⟨i, b, hi, hfirst, hilt, hb, (mem_numbers_word hb).mpr hbv⟩

/-- As long as a page is free, one is handed out and no longer free. -/
theorem Freemap.Sound.allocPage (h : m.Sound lo hi) (hne : m.free ≠ ∅) :
    ∃ p m', memoryAllocPage m = .ok (p, m') ∧ p ∈ m.free ∧ m'.free = m.free.erase p ∧
      m'.Sound lo hi := by
  obtain ⟨i, b, hi, hfirst, hilt, hb, hmem⟩ := h.search hne
  let f := Function.update m.freepages i (m.freepages i &&& invert (1#32 <<< b))
  have hf : numbers f = m.free.erase (i * 32 + b) := numbers_clear hb fun d hd => by
    rw [BitVec.getLsbD_and, invert_bit hd, Bool.and_comm]
  have hpos : 0 < m.free.card := Finset.card_pos.mpr ⟨_, hmem⟩
  have hn : m.nfreepages ≠ 0 := by
    have := h.count
    omega
  refine ⟨i * 32 + b, { m with
    mapnum := i
    freepages := f
    nfreepages := m.nfreepages - 1 }, ?_, hmem, hf, ?_, ?_, h.covers, h.words, .inr hilt, h.start⟩
  · unfold memoryAllocPage
    rw [if_neg hn, hi, ok_bind]
    simp only [hfirst]
    rfl
  · change m.nfreepages - 1 = ((numbers f).card : ℤ)
    rw [hf, Finset.card_erase_of_mem hmem, h.count, Nat.cast_sub hpos, Nat.cast_one]
  · change numbers f ⊆ _
    rw [hf]
    exact (Finset.erase_subset _ _).trans h.range

/-- Clearing words that are zero changes nothing. -/
theorem clearFreemap_zero (hm : ∀ j, m.freepages j = 0) {rounds i : ℕ}
    (h : i + rounds ≤ memoryMaxPages / 32) : clearFreemap rounds i m = .ok m := by
  induction rounds generalizing i with
  | zero => rfl
  | succ rounds ih =>
      have hi : i < memoryMaxPages / 32 := by omega
      unfold clearFreemap
      rw [dif_pos hi, ← hm ⟨i, hi⟩, Function.update_eq_self]
      exact ih (by omega)

/-- The second loop frees the pages that it runs over. -/
theorem freeFrom_spec {rounds c : ℕ} (h : c + rounds ≤ memoryMaxPages) :
    ∃ f, freeFrom rounds c m =
        .ok { m with freepages := f, nfreepages := m.nfreepages + rounds } ∧
      numbers f = m.free ∪ Finset.Ico c (c + rounds) := by
  induction rounds generalizing c m with
  | zero => exact ⟨m.freepages, by simp [freeFrom], by simp [Freemap.free]⟩
  | succ rounds ih =>
      obtain ⟨f, e, hf⟩ := memorySetFreemap_spec (m := { m with nfreepages := m.nfreepages + 1 })
        (show c < memoryMaxPages by omega)
      obtain ⟨g, e', hg⟩ := ih (c := c + 1)
        (m := { m with freepages := f, nfreepages := m.nfreepages + 1 }) (by omega)
      refine ⟨g, ?_, ?_⟩
      · unfold freeFrom
        rw [e]
        change freeFrom rounds (c + 1) _ = _
        rw [show (c + 1 : ℤ) = (c + 1 : ℕ) from (Nat.cast_succ c).symm, e']
        simp only [Nat.cast_succ]
        rw [add_right_comm, add_assoc]
      · rw [hg, show Freemap.free { m with freepages := f, nfreepages := m.nfreepages + 1 } =
          insert c m.free from hf]
        ext q
        simp only [Finset.mem_union, Finset.mem_insert, Finset.mem_Ico]
        grind

/-- The first page that is not part of the operating system. -/
def firstPage (lastosaddress : ℕ) : ℕ := (lastosaddress + memoryPageSize - 4) / memoryPageSize

/-- The static variables when the second loop starts. -/
def Freemap.cleared (start maxpage : ℕ) : Freemap := { Freemap.static with
  pagestart := BitVec.ofInt 32 start
  freemapmax := ((maxpage + 31) / 32 : ℕ) }

/-- The second loop leaves the pages from `start` on free. -/
theorem freeFrom_sound {start maxpage : ℕ} (hstart : start < 2 ^ 15) (hmax : maxpage < 2 ^ 15) :
    ∃ m, freeFrom (maxpage - start) start (.cleared start maxpage) = .ok m ∧
      m.free = Finset.Ico start maxpage ∧ m.Sound start maxpage := by
  have hlt : start + (maxpage - start) ≤ memoryMaxPages := by
    unfold memoryMaxPages
    omega
  obtain ⟨f, e, hf⟩ := freeFrom_spec (m := .cleared start maxpage) hlt
  have hIco : Finset.Ico start (start + (maxpage - start)) = Finset.Ico start maxpage := by
    ext q
    simp only [Finset.mem_Ico]
    omega
  rw [hIco, show (Freemap.cleared start maxpage).free = ∅ from numbers_zero,
    Finset.empty_union] at hf
  refine ⟨_, e, hf, ?_, hf.subset, ?_, ?_, .inl rfl, toNat_ofInt (by omega)⟩
  · change (0 : ℤ) + (maxpage - start : ℕ) = ((numbers f).card : ℤ)
    rw [hf, Nat.card_Ico, Int.zero_add]
  · change (maxpage : ℤ) ≤ ((maxpage + 31) / 32 : ℕ) * 32
    omega
  · change (((maxpage + 31) / 32 : ℕ) : ℤ) ≤ (memoryMaxPages / 32 : ℕ)
    unfold memoryMaxPages
    omega

/-- The start of the allocator on a memory of that size. -/
theorem memoryModuleInit_spec {memorySize lastosaddress : ℕ} (hsize : memorySize < 2 ^ 31)
    (hsum : lastosaddress + 65532 < 2 ^ 31) :
    ∃ m, memoryModuleInit memorySize lastosaddress .static = .ok m ∧
      m.free = Finset.Ico (firstPage lastosaddress) (memorySize / memoryPageSize) ∧
      m.Sound (firstPage lastosaddress) (memorySize / memoryPageSize) := by
  have hmax : memorySize / memoryPageSize < 2 ^ 15 := by
    unfold memoryPageSize
    omega
  have hstart : firstPage lastosaddress < 2 ^ 15 := by
    unfold firstPage memoryPageSize
    omega
  have hpagestart : (BitVec.ofInt 32 (lastosaddress + memoryPageSize - 4)).toInt.tdiv
      memoryPageSize = firstPage lastosaddress := by
    have hpage : memoryPageSize = 65536 := rfl
    rw [show (lastosaddress + memoryPageSize - 4 : ℤ) =
      ((lastosaddress + memoryPageSize - 4 : ℕ) : ℤ) by omega, toInt_ofInt (by omega)]
    exact (Int.ofNat_tdiv _ _).symm
  obtain ⟨m, e, hfree, sound⟩ := freeFrom_sound hstart hmax
  refine ⟨m, ?_, hfree, sound⟩
  unfold memoryModuleInit
  rw [show (memorySize : ℤ).tdiv memoryPageSize = (memorySize / memoryPageSize : ℕ) from
    (Int.ofNat_tdiv _ _).symm]
  simp only [hpagestart]
  generalize memorySize / memoryPageSize = maxpage at *
  generalize firstPage lastosaddress = start at *
  rw [show ((maxpage : ℤ) + 31).tdiv 32 = ((maxpage + 31) / 32 : ℕ) from (Int.ofNat_tdiv _ _).symm,
    Int.toNat_natCast, clearFreemap_zero (fun _ => rfl) (show 0 + (maxpage + 31) / 32 ≤ _ by
      unfold memoryMaxPages
      omega)]
  rw [ok_bind, toInt_ofInt (by omega), show ((maxpage : ℤ) - start).toNat = maxpage - start by omega]
  exact e

/-- The calls of the allocator, a page being its result or its argument. -/
inductive PageEvent
  | alloc (page : ℕ)
  | free (page : ℕ)

/-- The allocator beside the pages that it has handed out and not got back; only these are
freed. -/
def allocatorSystem (memorySize lastosaddress : ℕ) : System (Freemap × Finset ℕ) PageEvent where
  Init s := memoryModuleInit memorySize lastosaddress .static = .ok s.1 ∧ s.2 = ∅
  Step s e s' := match e with
    | .alloc page => memoryAllocPage s.1 = .ok (page, s'.1) ∧
        s'.2 = if page = 0 then s.2 else insert page s.2
    | .free page => page ∈ s.2 ∧ memoryFreePage s.1 page = .ok s'.1 ∧ s'.2 = s.2.erase page

/-- What the allocator promises about a state. -/
structure HandsOut (memorySize lastosaddress : ℕ) (m : Freemap) (allocated : Finset ℕ) : Prop where
  count : m.nfreepages = m.free.card
  free : m.free = Finset.Ico m.pagestart.toNat (memorySize / memoryPageSize) \ allocated
  alloc : ∃ p m', memoryAllocPage m = .ok (p, m') ∧ (p = 0 ↔ m.free = ∅) ∧
    (p ≠ 0 → p ∈ m.free ∧ m'.free = m.free.erase p)
  again : ∀ p ∈ allocated, ∃ m', memoryFreePage m p = .ok m' ∧ p ∈ m'.free ∧
    ∃ (pages : List ℕ) (s : Freemap × Finset ℕ), (allocatorSystem memorySize lastosaddress).Run
      (m', allocated.erase p) (pages.map .alloc) s ∧ p ∈ pages

/-- The allocator starts, and keeps its promises whatever is allocated and freed. -/
def AllocatorWorks (memorySize lastosaddress : ℕ) : Prop :=
  (∃ s, (allocatorSystem memorySize lastosaddress).Init s) ∧
    ∀ m allocated, (allocatorSystem memorySize lastosaddress).Reachable (m, allocated) →
      HandsOut memorySize lastosaddress m allocated

/-- The free pages are those of the range that are not allocated. -/
structure Freemap.Accounts (m : Freemap) (allocated : Finset ℕ) (lo hi : ℕ) : Prop where
  sound : m.Sound lo hi
  free : m.free = Finset.Ico lo hi \ allocated
  allocated : allocated ⊆ Finset.Ico lo hi

section Runs

variable {memorySize lastosaddress : ℕ} {allocated : Finset ℕ} {s s' : Freemap × Finset ℕ}

theorem Freemap.Accounts.alloc (h : m.Accounts allocated lo hi) (hlo : 0 < lo) :
    ∃ p m', memoryAllocPage m = .ok (p, m') ∧ (p = 0 ↔ m.free = ∅) ∧
      (p ≠ 0 → p ∈ m.free ∧ m'.free = m.free.erase p) ∧
      m'.Accounts (if p = 0 then allocated else insert p allocated) lo hi := by
  by_cases he : m.free = ∅
  · exact ⟨0, m, memoryAllocPage_none h.sound he, iff_of_true rfl he, absurd rfl, h⟩
  · obtain ⟨p, m', e, hp, hfree, sound⟩ := h.sound.allocPage he
    have hIco := h.sound.range hp
    have hne : p ≠ 0 := by
      have := Finset.mem_Ico.mp hIco
      omega
    refine ⟨p, m', e, iff_of_false hne he, fun _ => ⟨hp, hfree⟩, ?_⟩
    rw [if_neg hne]
    refine ⟨sound, ?_, Finset.insert_subset hIco h.allocated⟩
    rw [hfree, h.free]
    ext q
    simp only [Finset.mem_erase, Finset.mem_sdiff, Finset.mem_insert]
    grind

theorem Freemap.Accounts.free_page (h : m.Accounts allocated lo hi) (hp : p ∈ allocated) :
    ∃ m', memoryFreePage m p = .ok m' ∧ p ∈ m'.free ∧ m'.Accounts (allocated.erase p) lo hi := by
  have hIco := Finset.mem_Ico.mp (h.allocated hp)
  have hnot : p ∉ m.free := by
    rw [h.free, Finset.mem_sdiff]
    exact fun hm => hm.2 hp
  obtain ⟨m', e, hfree, sound⟩ := h.sound.freePage hIco.1 hIco.2 hnot
  refine ⟨m', e, ?_, sound, ?_, (Finset.erase_subset p _).trans h.allocated⟩
  · rw [hfree]
    exact Finset.mem_insert_self p _
  · rw [hfree, h.free]
    ext q
    simp only [Finset.mem_erase, Finset.mem_sdiff, Finset.mem_insert]
    have := h.allocated hp
    grind

theorem Freemap.Accounts.step {e : PageEvent} (h : s.1.Accounts s.2 lo hi) (hlo : 0 < lo)
    (hs : (allocatorSystem memorySize lastosaddress).Step s e s') : s'.1.Accounts s'.2 lo hi := by
  cases e with
  | alloc page =>
      obtain ⟨e, ha⟩ := hs
      obtain ⟨p, m', e', -, -, h'⟩ := h.alloc hlo
      obtain ⟨rfl, rfl⟩ : page = p ∧ s'.1 = m' := by
        rw [e] at e'
        simpa using e'
      rwa [ha]
  | free page =>
      obtain ⟨hp, e, ha⟩ := hs
      obtain ⟨m', e', -, h'⟩ := h.free_page hp
      obtain rfl : s'.1 = m' := by
        rw [e] at e'
        simpa using e'
      rwa [ha]

/-- A free page is handed out by one of the next calls. -/
theorem Freemap.Accounts.comes (h : m.Accounts allocated lo hi) (hlo : 0 < lo) (hp : p ∈ m.free) :
    ∃ (pages : List ℕ) (s : Freemap × Finset ℕ), (allocatorSystem memorySize lastosaddress).Run
      (m, allocated) (pages.map .alloc) s ∧ p ∈ pages := by
  induction hn : m.free.card generalizing m allocated with
  | zero => simp [Finset.card_eq_zero.mp hn] at hp
  | succ n ih =>
      obtain ⟨q, m', e, hq, hfree, h'⟩ := h.alloc hlo
      have hne : q ≠ 0 := fun hz => by simp [hq.mp hz] at hp
      obtain ⟨hmem, hfree⟩ := hfree hne
      have hstep : (allocatorSystem memorySize lastosaddress).Step (m, allocated) (.alloc q)
        (m', if q = 0 then allocated else insert q allocated) := ⟨e, rfl⟩
      by_cases hpq : p = q
      · exact ⟨[q], _, .single hstep, by simp [hpq]⟩
      · obtain ⟨pages, s, run, hmem'⟩ := ih h' (by
          rw [hfree]
          exact Finset.mem_erase.mpr ⟨hpq, hp⟩) (by
          rw [hfree, Finset.card_erase_of_mem hmem, hn, Nat.add_sub_cancel])
        exact ⟨q :: pages, s, .cons hstep run, List.mem_cons_of_mem q hmem'⟩

end Runs

/-- The page allocator hands out each free page exactly once. -/
theorem allocator_works {memorySize lastosaddress : ℕ} (hsize : memorySize < 2 ^ 31)
    (hlast : 4 ≤ lastosaddress) (hsum : lastosaddress + 65532 < 2 ^ 31) :
    AllocatorWorks memorySize lastosaddress := by
  have hlo : 0 < firstPage lastosaddress := Nat.div_pos (by omega) (by decide)
  obtain ⟨m₀, e₀, hfree, sound⟩ := memoryModuleInit_spec hsize hsum
  refine ⟨⟨(m₀, ∅), e₀, rfl⟩, fun m allocated hr => ?_⟩
  have h : m.Accounts allocated (firstPage lastosaddress) (memorySize / memoryPageSize) := by
    refine hr.invariant (P := fun s => s.1.Accounts s.2 (firstPage lastosaddress)
      (memorySize / memoryPageSize)) ?_ fun s e s' _ hs => hs.step hlo
    rintro s ⟨e, ha⟩
    rw [e₀] at e
    obtain rfl : m₀ = s.1 := by simpa using e
    rw [ha]
    exact ⟨sound, by rw [hfree, Finset.sdiff_empty], Finset.empty_subset _⟩
  refine ⟨h.sound.count, ?_, ?_, fun p hp => ?_⟩
  · rw [h.sound.start]
    exact h.free
  · obtain ⟨p, m', e, hz, hne, -⟩ := h.alloc hlo
    exact ⟨p, m', e, hz, hne⟩
  · obtain ⟨m', e, hmem, h'⟩ := h.free_page hp
    exact ⟨m', e, hmem, h'.comes hlo hmem⟩

theorem allocator_works_64 : AllocatorWorks (64 * memoryPageSize) 0x20008 :=
  allocator_works (by decide) (by decide) (by decide)

theorem toInt_wrap {k : ℤ} (hlo : 2 ^ 31 ≤ k) (hhi : k < 2 ^ 32) :
    (BitVec.ofInt 32 k).toInt = k - 2 ^ 32 := by
  rw [BitVec.toInt_ofInt, Int.bmod_def]
  omega

theorem toInt_neg {k : ℕ} (hk : k ≤ 2 ^ 31) : (BitVec.ofInt 32 (-k)).toInt = -k := by
  rw [BitVec.toInt_ofInt]
  exact Int.bmod_eq_of_le (by omega) (by omega)

theorem freeFrom_wild {rounds k : ℕ} (hr : rounds ≠ 0) (hk : 32 ≤ k) (hk' : k < 2 ^ 31) :
    freeFrom rounds (-k) m = .error .wildAccess := by
  have hwd : memoryMaxPages / 32 ≤ (BitVec.ofInt 32 ((-k : ℤ).tdiv 32)).toNat := by
    rw [Int.neg_tdiv, show (k : ℤ).tdiv 32 = (k / 32 : ℕ) from (Int.ofNat_tdiv k 32).symm,
      BitVec.toNat_ofInt]
    unfold memoryMaxPages
    omega
  cases rounds with
  | zero => exact absurd rfl hr
  | succ rounds =>
      unfold freeFrom memorySetFreemap
      rw [dif_neg (Nat.not_lt.mpr hwd)]
      rfl

/-- Where the sum in `MemoryModuleInit` overflows, the first page is a negative number and the
start-up writes outside the freemap. -/
theorem memoryModuleInit_wild {memorySize lastosaddress : ℕ} (hsize : memorySize < 2 ^ 31)
    (hlast : lastosaddress < 2 ^ 31) (hsum : 2 ^ 31 ≤ lastosaddress + 65532) :
    memoryModuleInit memorySize lastosaddress .static = .error .wildAccess := by
  have hmax : memorySize / memoryPageSize < 2 ^ 15 := by
    unfold memoryPageSize
    omega
  let k := (2 ^ 32 - (lastosaddress + 65532)) / 65536
  have hpagestart : (BitVec.ofInt 32 (lastosaddress + memoryPageSize - 4)).toInt.tdiv
      memoryPageSize = -(k : ℤ) := by
    rw [show (lastosaddress + memoryPageSize - 4 : ℤ) = lastosaddress + 65532 by
      unfold memoryPageSize
      omega, toInt_wrap (by omega) (by omega),
      show (lastosaddress + 65532 - 2 ^ 32 : ℤ) =
        -((2 ^ 32 - (lastosaddress + 65532) : ℕ) : ℤ) by omega, Int.neg_tdiv]
    exact congrArg Neg.neg (Int.ofNat_tdiv _ _).symm
  have hk : 32 ≤ k ∧ k < 2 ^ 31 := by omega
  generalize k = k at hpagestart hk
  unfold memoryModuleInit
  rw [show (memorySize : ℤ).tdiv memoryPageSize = (memorySize / memoryPageSize : ℕ) from
    (Int.ofNat_tdiv _ _).symm]
  simp only [hpagestart]
  generalize memorySize / memoryPageSize = maxpage at *
  rw [show ((maxpage : ℤ) + 31).tdiv 32 = ((maxpage + 31) / 32 : ℕ) from (Int.ofNat_tdiv _ _).symm,
    Int.toNat_natCast, clearFreemap_zero (fun _ => rfl) (show 0 + (maxpage + 31) / 32 ≤ _ by
      unfold memoryMaxPages
      omega)]
  rw [ok_bind, toInt_neg (by omega)]
  exact freeFrom_wild (by omega) hk.1 hk.2

/-- An address below 4 makes page 0 free, which is handed out as if there were none, and one near
the end of the address space makes the start-up write outside the freemap. -/
theorem not_every_allocator_works :
    ¬ AllocatorWorks memoryPageSize 1 ∧ ¬ AllocatorWorks memoryPageSize 0x7fffffff := by
  constructor
  · rintro ⟨-, h⟩
    obtain ⟨m, e, hfree, sound⟩ := memoryModuleInit_spec
      (show memoryPageSize < 2 ^ 31 by decide) (show 1 + 65532 < 2 ^ 31 by decide)
    rw [show firstPage 1 = 0 from rfl, show memoryPageSize / memoryPageSize = 1 from rfl,
      Nat.Ico_succ_singleton] at hfree
    have hne : m.free ≠ ∅ := by simp [hfree]
    obtain ⟨p, m', e', hp, -⟩ := sound.allocPage hne
    obtain ⟨p', m'', e'', hz, -⟩ := (h m ∅ (.init ⟨e, rfl⟩)).alloc
    obtain ⟨rfl, -⟩ : p = p' ∧ m' = m'' := by
      rw [e'] at e''
      simpa using e''
    rw [hfree, Finset.mem_singleton] at hp
    exact hne (hz.mp hp)
  · rintro ⟨⟨s, e, -⟩, -⟩
    rw [memoryModuleInit_wild (by decide) (by decide) (by decide)] at e
    cases e

end DlxOs.Memory
