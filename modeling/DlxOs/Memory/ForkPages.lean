import DlxOs.Memory.Mapping

/-!
# The pages of a fork that fails

A fork takes two pages before it opens the file. When it fails, the page table of
the new process is one page long, and the two pages go back unless the first one
is taken for a shared page of another process.
-/

namespace DlxOs.Memory

open Bitmaps Sharing
open Kernel (Halt PcbPtr ok_bind ok_bind_inv processStatusMask processStatusRunnable
  processStatusFree)

variable {m m' : Freemap} {s s' : Os} {p : PcbPtr} {page stack : ℕ} {pages : List ℕ}

/-! ### Pages that are taken and given back -/

/-- The free pages, with those of the list given back. -/
structure Freemap.Regains (m m' : Freemap) (pages : List ℕ) : Prop where
  free : m'.free = m.free ∪ pages.toFinset
  nfreepages : m'.nfreepages = m.nfreepages + pages.length

theorem Freemap.Regains.refl (m : Freemap) : m.Regains m [] := ⟨by simp, by simp⟩

theorem Freemap.Regains.snoc {m'' : Freemap} (h : m.Regains m' pages) (h' : m'.Regains m'' [page]) :
    m.Regains m'' (pages ++ [page]) where
  free := by
    rw [h'.free, h.free, List.toFinset_append, Finset.union_assoc]
  nfreepages := by
    rw [h'.nfreepages, h.nfreepages, List.length_append]
    push_cast
    ring

/-- The page that is handed out was free and is not any more. -/
theorem memoryAllocPage_inv (e : memoryAllocPage m = .ok (page, m')) (hne : page ≠ 0) :
    page < memoryMaxPages ∧ page ∈ m.free ∧ m'.free = m.free.erase page ∧
      m'.nfreepages = m.nfreepages - 1 := by
  unfold memoryAllocPage at e
  split at e
  · cases e
    exact absurd rfl hne
  · obtain ⟨i, hi, e⟩ := ok_bind_inv e
    simp only at e
    split at e
    · cases e
    · next b hb =>
        obtain ⟨hlt, hset⟩ := firstBit_some hb
        rw [Nat.zero_add] at hlt
        cases e
        have hmem : i * 32 + b ∈ m.free :=
          (mem_numbers_word hlt).mpr ((and_bit_ne_zero hlt).mp hset)
        refine ⟨Freemap.free_lt hmem, hmem, ?_, rfl⟩
        refine numbers_clear hlt fun d hd => ?_
        rw [BitVec.getLsbD_and, invert_bit hd, Bool.and_comm]

/-- A page can be given back whatever the state of the allocator. -/
theorem memoryFreePage_regains (hp : page < memoryMaxPages) :
    ∃ m', memoryFreePage m page = .ok m' ∧ m.Regains m' [page] := by
  obtain ⟨f, e, hf⟩ := memorySetFreemap_spec (m := m) hp
  refine ⟨{ m with freepages := f, nfreepages := m.nfreepages + 1 }, ?_, ?_, by simp⟩
  · unfold memoryFreePage
    rw [e]
    rfl
  · change numbers f = _
    rw [hf, Finset.insert_eq, Finset.union_comm]
    rfl

theorem Os.freePage_regains (hp : page < memoryMaxPages) :
    ∃ s', s.freePage page = .ok s' ∧ s.freemap.Regains s'.freemap [page] ∧ s'.pcbs = s.pcbs := by
  obtain ⟨m', e, h⟩ := memoryFreePage_regains (m := s.freemap) hp
  refine ⟨{ s with
    freemap := m'
    frees := s.frees ++ [⟨page, isSet s.freemap.freepages page⟩] }, ?_, h, rfl⟩
  unfold Os.freePage
  rw [e]
  rfl

/-! ### The resources of a process with one page -/

/-- The process has one page and a system stack. -/
structure Os.OneEntry (s : Os) (p : PcbPtr) (page stack : ℕ) : Prop where
  npages : (s.pcbs p).npages = 1
  pte : (s.pcbs p).wordAt 0 = memorySetupPte (BitVec.ofNat 32 page)
  ne_zero : page ≠ 0
  page_lt : page < memoryMaxPages
  stackPage : (s.pcbs p).stackPage = stack
  stack_lt : stack < memoryMaxPages

namespace Os.OneEntry

theorem frame (h : s.OneEntry p page stack) : (s.pcbs p).frame 0 = page := by
  unfold PCB.frame
  rw [h.pte, setupPte_ofNat h.page_lt]

theorem entry (h : s.OneEntry p page stack) :
    (s.pcbs p).entry 0 = .ok (memorySetupPte (BitVec.ofNat 32 page)) := by
  rw [PCB.entry_eq (Nat.zero_le _), h.pte]

/-- The second loop, while the entry counts. -/
theorem freePtes (h : s.OneEntry p page stack) :
    ∃ s', freePtes p (s.pcbs p).npages.toNat 0 s = .ok s' ∧
      s.freemap.Regains s'.freemap [page] ∧ s'.pcbs = s.pcbs := by
  obtain ⟨s', e, hr, hpcbs⟩ := Os.freePage_regains (s := s) h.page_lt
  refine ⟨s', ?_, hr, hpcbs⟩
  have hframe : (memorySetupPte (BitVec.ofNat 32 page) &&& memoryPteMask).toNat / memoryPageSize =
      page := by
    rw [setupPte_mask, setupPte_toNat, Nat.mul_div_cancel _ (by decide), ← setupPte_frame,
      setupPte_ofNat h.page_lt]
  rw [h.npages]
  change Memory.freePtes p 1 0 s = _
  unfold Memory.freePtes
  rw [h.entry, ok_bind, memoryFreePte, hframe, e, ok_bind]
  rfl

/-- The first loop, where the page is an entry: it goes back if no other process has it. -/
theorem freeSharedPte (h : s.OneEntry p page stack) {i : Fin memoryMaxSharedPages}
    (hi : s.findEntry page = some i) :
    ∃ r s', memoryFreeSharedPte s p 0 = .ok (r, s') ∧
      s.freemap.Regains s'.freemap (if s.sharers page ⊆ {p} then [page] else []) ∧
      (s'.pcbs p).npages = 0 ∧ (s'.pcbs p).stackPage = stack := by
  let bits := without (s.spages i).bits p
  let s₁ := (s.setEntry i { s.spages i with bits := bits }).setPcb p
    { s.pcbs p with npages := (s.pcbs p).npages - 1 }
  have hself : s₁.pcbs p = { s.pcbs p with npages := (s.pcbs p).npages - 1 } := Os.setPcb_self
  have hn : (s₁.pcbs p).npages = 0 := by
    rw [hself]
    change (s.pcbs p).npages - 1 = 0
    rw [h.npages]
    rfl
  have hstack : (s₁.pcbs p).stackPage = stack := by
    rw [hself]
    exact h.stackPage
  have hzero : countBits bits = 0 ↔ s.sharers page ⊆ {p} := by
    rw [countBits_eq_zero, Os.sharers_of_some hi, show sharersOf bits = _ from sharersOf_and,
      ← Finset.subset_empty, ← Finset.subset_insert_iff, insert_empty_eq]
  have hstep : memoryFreeSharedPte s p 0 = (if countBits bits = 0 then do
      return ((countBits bits : ℤ), ← s₁.freePage page)
    else return ((countBits bits : ℤ), s₁)) := by
    unfold memoryFreeSharedPte
    rw [h.entry, ok_bind, setupPte_ofNat h.page_lt]
    simp only [if_neg h.ne_zero, hi]
    rfl
  rw [hstep]
  by_cases hc : countBits bits = 0
  · obtain ⟨s₂, e, hr, hpcbs⟩ := Os.freePage_regains (s := s₁) h.page_lt
    rw [if_pos hc, if_pos (hzero.mp hc), e]
    exact ⟨_, s₂, rfl, hr, by rw [hpcbs, hn], by rw [hpcbs, hstack]⟩
  · rw [if_neg hc, if_neg fun hs => hc (hzero.mpr hs)]
    exact ⟨_, s₁, rfl, .refl _, hn, hstack⟩

/-- The two loops give back the page, unless it is an entry with another process. -/
theorem freeLoops (h : s.OneEntry p page stack) :
    ∃ s₁ s₂, freeSharedPtes p (s.pcbs p).npages.toNat 0 s = .ok s₁ ∧
      Memory.freePtes p (s₁.pcbs p).npages.toNat 0 s₁ = .ok s₂ ∧
      s.freemap.Regains s₂.freemap (if s.sharers page ⊆ {p} then [page] else []) ∧
      (s₂.pcbs p).stackPage = stack := by
  have hone : freeSharedPtes p (s.pcbs p).npages.toNat 0 s =
      memoryFreeSharedPte s p 0 >>= fun r => .ok r.2 := by
    rw [h.npages]
    rfl
  rw [hone]
  cases hf : s.findEntry page with
  | none =>
      obtain ⟨s₂, e, hr, hpcbs⟩ := h.freePtes
      refine ⟨s, s₂, ?_, e, ?_, by rw [hpcbs]; exact h.stackPage⟩
      · rw [memoryFreeSharedPte_private (by decide) (by rw [h.frame]; exact h.ne_zero)
          (by simp [Os.shared, h.frame, hf]), ok_bind]
      · rw [Os.sharers_of_none hf, if_pos (Finset.empty_subset _)]
        exact hr
  | some i =>
      obtain ⟨r, s₁, e, hr, hn, hstack⟩ := h.freeSharedPte hf
      refine ⟨s₁, s₁, by rw [e, ok_bind], ?_, hr, hstack⟩
      rw [hn]
      rfl

/-- The system stack goes back in any case. -/
theorem freeResources (h : s.OneEntry p page stack) :
    ∃ s', processFreeResources s p = .ok s' ∧ s.freemap.Regains s'.freemap
      ((if s.sharers page ⊆ {p} then [page] else []) ++ [stack]) := by
  have h' : (s.setFlags p processStatusFree).OneEntry p page stack := by
    refine ⟨?_, ?_, h.ne_zero, h.page_lt, ?_, h.stack_lt⟩
    · rw [Os.setFlags, Os.setPcb_self]
      exact h.npages
    · rw [Os.setFlags, Os.setPcb_self]
      exact h.pte
    · rw [Os.setFlags, Os.setPcb_self]
      exact h.stackPage
  obtain ⟨s₁, s₂, e₁, e₂, hr, hstack⟩ := h'.freeLoops
  obtain ⟨s₃, e₃, hr', -⟩ := Os.freePage_regains (s := s₂) h.stack_lt
  refine ⟨processSetStatus s₃ p processStatusFree, ?_, hr.snoc hr'⟩
  unfold processFreeResources
  simp only [e₁, ok_bind, e₂]
  rw [show (s₂.pcbs p).sysStackArea.toNat / memoryPageSize = stack from hstack, e₃]
  rfl

end Os.OneEntry

/-! ### The fork -/

/-- The page that is handed out next is no shared page of a process other than `p`. -/
def Os.NextUnshared (s : Os) (p : PcbPtr) : Prop :=
  ∀ page m, memoryAllocPage s.freemap = .ok (page, m) → s.sharers page ⊆ {p}

theorem processMaxPages_pos : 0 < processMaxPages := by decide

/-- The state after a fork has taken a page and a system stack. -/
def Os.took (s : Os) (p : PcbPtr) (page stack : ℕ) (m : Freemap) : Os :=
  { s with
    freemap := m
    pcbs := Function.update s.pcbs p
      { sysStackArea := BitVec.ofNat 32 (stack * memoryPageSize)
        flags := ((s.pcbs p).flags &&& ~~~processStatusMask) ||| processStatusRunnable
        pagetable := Function.update (s.pcbs p).pagetable ⟨0, processMaxPages_pos⟩
          (memorySetupPte (BitVec.ofNat 32 page))
        npages := 1 } }

section Took

variable {m₁ m₂ : Freemap}

theorem Os.took_of_ne {q : PcbPtr} (hq : q ≠ p) : (s.took p page stack m).pcbs q = s.pcbs q :=
  Function.update_of_ne hq ..

theorem Os.took_npages : ((s.took p page stack m).pcbs p).npages = 1 := by
  simp [Os.took]

theorem Os.took_flags : ((s.took p page stack m).pcbs p).flags =
    ((s.pcbs p).flags &&& ~~~processStatusMask) ||| processStatusRunnable := by
  simp [Os.took]

theorem Os.took_live : (s.took p page stack m).Live p := by
  unfold Os.Live
  rw [Os.took_flags, status_live]
  decide

theorem Os.took_entry : ((s.took p page stack m).pcbs p).pagetable ⟨0, by decide⟩ =
    memorySetupPte (BitVec.ofNat 32 page) := by
  simp [Os.took]

theorem Os.took_wordAt :
    ((s.took p page stack m).pcbs p).wordAt 0 = memorySetupPte (BitVec.ofNat 32 page) := by
  unfold PCB.wordAt
  rw [dif_pos (by decide)]
  exact Os.took_entry

theorem Os.took_stackPage (hstack : stack < memoryMaxPages) :
    ((s.took p page stack m).pcbs p).stackPage = stack := by
  have hself : ((s.took p page stack m).pcbs p).sysStackArea =
      BitVec.ofNat 32 (stack * memoryPageSize) := by
    simp [Os.took]
  unfold PCB.stackPage
  rw [hself, BitVec.toNat_ofNat]
  unfold memoryMaxPages memoryPageSize at *
  omega

/-- A fork takes two pages, or leaves the simulator. -/
theorem forkPages_eq : forkPages s p = memoryAllocPage s.freemap >>= fun r =>
    if r.1 = 0 then
      .error (.exitsim ["aFATAL: couldn't allocate memory - no free pages!\n"])
    else memoryAllocPage r.2 >>= fun r' =>
      if r'.1 = 0 then
        .error (.exitsim ["bFATAL: couldn't allocate system stack - no free pages!\n"])
      else .ok (s.took p r.1 r'.1 r'.2) := by
  unfold forkPages Os.allocPage processSetStatus Os.setFlags Os.setPcb
  simp only
  cases memoryAllocPage s.freemap with
  | error e => rfl
  | ok r =>
    rw [ok_bind, ok_bind]
    change (if r.1 = 0 then _ else _) = if r.1 = 0 then _ else _
    split_ifs
    · rfl
    · cases memoryAllocPage r.2 with
      | error e => rfl
      | ok r' =>
        rw [ok_bind, ok_bind]
        change (if r'.1 = 0 then _ else _) = if r'.1 = 0 then _ else _
        split_ifs
        · rfl
        · simp [Os.took, pure, Except.pure]

/-- With two pages, a fork takes them. -/
theorem forkPages_ok (hm₁ : memoryAllocPage s.freemap = .ok (page, m₁)) (hne : page ≠ 0)
    (hm₂ : memoryAllocPage m₁ = .ok (stack, m₂)) (hne' : stack ≠ 0) :
    forkPages s p = .ok (s.took p page stack m₂) := by
  rw [forkPages_eq, hm₁, ok_bind, if_neg hne, hm₂, ok_bind, if_neg hne']

/-- With two free pages, both can be handed out. -/
theorem Freemap.Sound.two_pages {lo hi : ℕ} (h : m.Sound lo hi) (hlo : 0 < lo)
    (hn : 2 ≤ m.nfreepages) : ∃ page stack m₁ m₂, memoryAllocPage m = .ok (page, m₁) ∧ page ≠ 0 ∧
      memoryAllocPage m₁ = .ok (stack, m₂) ∧ stack ≠ 0 := by
  have positive : ∀ r ∈ m.free, r ≠ 0 := fun r hr => by
    have := Finset.mem_Ico.mp (h.range hr)
    omega
  have hcard : 2 ≤ m.free.card := by
    have := h.count
    omega
  have hsome : m.free ≠ ∅ := Finset.card_pos.mp (by omega) |>.ne_empty
  obtain ⟨page, m₁, hm₁, hmem, hfree, hsound⟩ := h.allocPage hsome
  have hsome₁ : m₁.free ≠ ∅ := by
    have hle : 0 < m₁.free.card := by
      rw [hfree, Finset.card_erase_of_mem hmem]
      omega
    exact (Finset.card_pos.mp hle).ne_empty
  obtain ⟨stack, m₂, hm₂, hmem', -⟩ := hsound.allocPage hsome₁
  rw [hfree] at hmem'
  exact ⟨page, stack, m₁, m₂, hm₁, positive page hmem, hm₂,
    positive stack (Finset.mem_of_mem_erase hmem')⟩

/-- A fork that has its pages has taken two. -/
theorem forkPages_inv (e : forkPages s p = .ok s') : ∃ page stack m₁ m₂,
    memoryAllocPage s.freemap = .ok (page, m₁) ∧ page ≠ 0 ∧
      memoryAllocPage m₁ = .ok (stack, m₂) ∧ stack ≠ 0 ∧ s' = s.took p page stack m₂ := by
  rw [forkPages_eq] at e
  obtain ⟨⟨page, m₁⟩, hm₁, e⟩ := ok_bind_inv e
  split at e
  · cases e
  next hne =>
  obtain ⟨⟨stack, m₂⟩, hm₂, e⟩ := ok_bind_inv e
  split at e
  · cases e
  next hne' =>
  exact ⟨page, stack, m₁, m₂, hm₁, hne, hm₂, hne', (Except.ok.inj e).symm⟩

/-- Two pages can be handed out. -/
def Freemap.TwoPages (m : Freemap) : Prop :=
  ∃ page stack m₁ m₂, memoryAllocPage m = .ok (page, m₁) ∧ page ≠ 0 ∧
    memoryAllocPage m₁ = .ok (stack, m₂) ∧ stack ≠ 0

theorem forkPages_iff : (∃ t, forkPages s p = .ok t) ↔ s.freemap.TwoPages := by
  constructor
  · rintro ⟨t, e⟩
    obtain ⟨page, stack, m₁, m₂, hm₁, hne, hm₂, hne', -⟩ := forkPages_inv e
    exact ⟨page, stack, m₁, m₂, hm₁, hne, hm₂, hne'⟩
  · rintro ⟨page, stack, m₁, m₂, hm₁, hne, hm₂, hne'⟩
    exact ⟨_, forkPages_ok hm₁ hne hm₂ hne'⟩

/-- Where the books are right, these are two of the free pages. -/
theorem Freemap.Sound.twoPages_iff {lo hi : ℕ} (h : m.Sound lo hi) (hlo : 0 < lo) :
    m.TwoPages ↔ 2 ≤ m.nfreepages := by
  constructor
  · rintro ⟨page, stack, m₁, m₂, hm₁, hne, hm₂, hne'⟩
    obtain ⟨-, hmem, hfree, -⟩ := memoryAllocPage_inv hm₁ hne
    obtain ⟨-, hmem', -⟩ := memoryAllocPage_inv hm₂ hne'
    rw [hfree] at hmem'
    have hcard := Finset.one_lt_card.mpr ⟨stack, Finset.mem_of_mem_erase hmem', page, hmem,
      Finset.ne_of_mem_erase hmem'⟩
    rw [h.count]
    exact_mod_cast hcard
  · exact fun hn => h.two_pages hlo hn

theorem Os.took_oneEntry (hm₁ : memoryAllocPage s.freemap = .ok (page, m₁)) (hne : page ≠ 0)
    (hm₂ : memoryAllocPage m₁ = .ok (stack, m₂)) (hne' : stack ≠ 0) :
    (s.took p page stack m₂).OneEntry p page stack := by
  have hlt' := (memoryAllocPage_inv hm₂ hne').1
  exact ⟨Os.took_npages, Os.took_wordAt, hne, (memoryAllocPage_inv hm₁ hne).1,
    Os.took_stackPage hlt', hlt'⟩

/-- What a fork without a usable file does to the pages that it has taken. -/
theorem processFork_pages {fd : ℤ} (hfd : fd < 0)
    (hm₁ : memoryAllocPage s.freemap = .ok (page, m₁)) (hne : page ≠ 0)
    (hm₂ : memoryAllocPage m₁ = .ok (stack, m₂)) (hne' : stack ≠ 0) :
    processFork s p (some fd) =
      processFreeResources (s.took p page stack m₂) p >>= fun s' => .ok (-1, s') := by
  unfold processFork
  rw [forkPages_ok hm₁ hne hm₂ hne', ok_bind]
  exact if_pos hfd

end Took

/-- A fork that returns has taken two pages. -/
theorem processFork_allocates {fd : Option ℤ} {rv : ℤ} (e : processFork s p fd = .ok (rv, s')) :
    s.freemap.TwoPages := by
  obtain ⟨t, et, -⟩ := ok_bind_inv e
  exact forkPages_iff.mp ⟨t, et⟩

/-- The pages that a failed fork took are all free again exactly if the first of them is no shared
page of another process. -/
theorem processFork_fails {fd rv : ℤ} (hfd : fd < 0)
    (e : processFork s p (some fd) = .ok (rv, s')) :
    s'.freemap.free = s.freemap.free ∧ s'.freemap.nfreepages = s.freemap.nfreepages ↔
      s.NextUnshared p := by
  obtain ⟨page, stack, m₁, m₂, hm₁, hne, hm₂, hne'⟩ := processFork_allocates e
  have et := processFork_pages (p := p) hfd hm₁ hne hm₂ hne'
  have hone := Os.took_oneEntry (p := p) hm₁ hne hm₂ hne'
  obtain ⟨t, ht⟩ : ∃ t, t = s.took p page stack m₂ := ⟨_, rfl⟩
  obtain rfl : t.freemap = m₂ := congrArg Os.freemap ht
  have hspages : t.spages = s.spages := (congrArg Os.spages ht).trans rfl
  rw [← ht] at et hone
  obtain ⟨-, hmem, hfree, hn⟩ := memoryAllocPage_inv hm₁ hne
  obtain ⟨-, hmem', hfree', hn'⟩ := memoryAllocPage_inv hm₂ hne'
  obtain ⟨u, eu, hr⟩ := hone.freeResources
  rw [et, eu, ok_bind] at e
  obtain ⟨-, rfl⟩ := Prod.mk.inj (Except.ok.inj e)
  have hnext : s.NextUnshared p ↔ t.sharers page ⊆ {p} := by
    rw [Os.sharers_congr hspages]
    constructor
    · exact fun h => h page m₁ hm₁
    · intro h page' m hm
      obtain ⟨rfl, -⟩ := Prod.mk.inj (Except.ok.inj (hm₁.symm.trans hm))
      exact h
  rw [hnext]
  rw [hfree] at hmem' hfree'
  obtain ⟨hsp, hmem'⟩ := Finset.mem_erase.mp hmem'
  by_cases hs : t.sharers page ⊆ {p}
  · rw [if_pos hs] at hr
    refine iff_of_true ⟨?_, ?_⟩ hs
    · rw [hr.free, hfree']
      ext q
      simp only [Finset.mem_union, Finset.mem_erase, List.mem_toFinset, List.mem_append,
        List.mem_singleton]
      grind
    · rw [hr.nfreepages, hn', hn]
      simp only [List.length_append, List.length_singleton]
      omega
  · rw [if_neg hs] at hr
    refine iff_of_false (fun ⟨_, h⟩ => ?_) hs
    rw [hr.nfreepages, hn', hn] at h
    simp at h

/-- A fork whose file cannot be used returns -1 once it has its pages. -/
theorem processFork_returns {m₁ m₂ : Freemap} {fd : ℤ} (hfd : fd < 0)
    (hm₁ : memoryAllocPage s.freemap = .ok (page, m₁)) (hne : page ≠ 0)
    (hm₂ : memoryAllocPage m₁ = .ok (stack, m₂)) (hne' : stack ≠ 0) :
    ∃ s', processFork s p (some fd) = .ok (-1, s') := by
  obtain ⟨u, eu, -⟩ := (Os.took_oneEntry (p := p) hm₁ hne hm₂ hne').freeResources
  exact ⟨u, by rw [processFork_pages hfd hm₁ hne hm₂ hne', eu, ok_bind]⟩

end DlxOs.Memory
