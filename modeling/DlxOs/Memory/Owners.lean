import DlxOs.Memory.Release

/-!
# The owners of the pages

A live process owns the pages that the first `npages` entries of its page table
map, and the page of its system stack. The books agree with these owners. They
still do when a process gives all its pages back, or maps one more.
-/

namespace DlxOs.Memory

open Sharing
open Kernel (Halt PcbPtr ok_bind processStatusFree processStatusRunnable processStatusWaiting
  processStatusZombie processStatusMask processTypeSystem processTypeUser)

variable {s s' : Os} {p q : PcbPtr} {page r lo hi i : ℕ} {H : ℕ → Finset PcbPtr}

/-- The flags of a process that is runnable or waiting. -/
def statusLive : BitVec 32 := processStatusRunnable ||| processStatusWaiting

/-- A process that is runnable or waiting. -/
def Os.Live (s : Os) (p : PcbPtr) : Prop := (s.pcbs p).flags &&& statusLive ≠ 0

instance : Decidable (s.Live p) := inferInstanceAs (Decidable (_ ≠ _))

/-- The pages that the first `npages` entries map, and the page of the system stack. -/
def PCB.pages (b : PCB) : List ℕ := b.frames 0 b.npages.toNat ++ [b.stackPage]

/-- The live processes that have the page. -/
def Os.owners (s : Os) (page : ℕ) : Finset PcbPtr :=
  Finset.univ.filter fun p => s.Live p ∧ page ∈ (s.pcbs p).pages

theorem Os.mem_owners : p ∈ s.owners page ↔ s.Live p ∧ page ∈ (s.pcbs p).pages := by
  simp [Os.owners]

/-- The memory of a live process. -/
structure Os.Furnished (s : Os) (p : PcbPtr) : Prop where
  one_le : 1 ≤ (s.pcbs p).npages
  le_max : (s.pcbs p).npages ≤ processMaxPages
  setup : ∀ i < (s.pcbs p).npages.toNat, ∃ page, (s.pcbs p).wordAt i = memorySetupPte page
  nodup : (s.pcbs p).pages.Nodup
  shared : ∀ i, 0 < i → i < (s.pcbs p).npages.toNat → s.shared ((s.pcbs p).frame i) = true
  stack : s.sharers (s.pcbs p).stackPage = ∅

/-- The books agree with the pages of the live processes. -/
structure Os.Inv (s : Os) (lo hi : ℕ) : Prop where
  books : Books s lo hi s.owners
  furnished : ∀ p, s.Live p → s.Furnished p

theorem Os.setPcb_setPcb {b b' : PCB} : (s.setPcb p b).setPcb p b' = s.setPcb p b' := by
  simp [Os.setPcb]

theorem Os.setFlags_setFlags {f g : BitVec 32} : (s.setFlags p f).setFlags p g = s.setFlags p g := by
  unfold Os.setFlags
  rw [Os.setPcb_self, Os.setPcb_setPcb]

theorem PCB.frame_mem {b : PCB} (hi : i < b.npages.toNat) : b.frame i ∈ b.pages := by
  refine List.mem_append_left _ (List.mem_map.mpr ⟨i, ?_, rfl⟩)
  exact List.mem_range'_1.mpr ⟨Nat.zero_le i, by omega⟩

/-- A process has the same memory if its PCB and its entries in the table are the same. -/
theorem Os.Furnished.congr (h : s.Furnished p) (hp : s'.pcbs p = s.pcbs p)
    (hshared : ∀ r ∈ (s.pcbs p).pages, s.shared r = true → s'.shared r = true)
    (hstack : s'.sharers (s.pcbs p).stackPage = ∅) : s'.Furnished p where
  one_le := hp ▸ h.one_le
  le_max := hp ▸ h.le_max
  setup := hp ▸ h.setup
  nodup := hp ▸ h.nodup
  shared i hi hlt := by
    rw [hp] at hlt ⊢
    exact hshared _ (PCB.frame_mem hlt) (h.shared i hi hlt)
  stack := by rw [hp, hstack]

/-- Only the first page of a process can be one that is not shared: the second loop of the release
runs over that page or over none. -/
theorem Os.Furnished.filter_frames (h : s.Furnished p) {n : ℕ}
    (hn : n = ((s.pcbs p).npages -
      (((s.pcbs p).frames 0 (s.pcbs p).npages.toNat).filter s.shared).length).toNat) :
    n ≤ (s.pcbs p).npages.toNat ∧ (((s.pcbs p).frames 0 (s.pcbs p).npages.toNat).filter s.shared ++
        (s.pcbs p).frames 0 n).Perm ((s.pcbs p).frames 0 (s.pcbs p).npages.toNat) ∧
      ∀ f ∈ (s.pcbs p).frames 0 n, s.shared f = false := by
  have hone := h.one_le
  obtain ⟨k, hk⟩ : ∃ k, (s.pcbs p).npages.toNat = k + 1 := ⟨_, (Nat.succ_pred (by omega)).symm⟩
  have hrest : ((s.pcbs p).frames 1 k).filter s.shared = (s.pcbs p).frames 1 k := by
    rw [List.filter_eq_self]
    intro f hf
    obtain ⟨j, hj, rfl⟩ := List.mem_map.mp hf
    have := List.mem_range'_1.mp hj
    exact h.shared j (by omega) (by omega)
  have hlen : ((s.pcbs p).frames 1 k).length = k := by
    rw [PCB.frames, List.length_map, List.length_range']
  rw [hk, PCB.frames_succ] at hn ⊢
  cases hs : s.shared ((s.pcbs p).frame 0) with
  | true =>
      rw [List.filter_cons_of_pos hs, hrest, List.length_cons, hlen] at hn
      obtain rfl : n = 0 := by omega
      rw [List.filter_cons_of_pos hs, hrest]
      exact ⟨Nat.zero_le _, (List.append_nil _).symm ▸ .refl _, by simp [PCB.frames]⟩
  | false =>
      have hs' := Bool.eq_false_iff.mp hs
      rw [List.filter_cons_of_neg hs', hrest, hlen] at hn
      obtain rfl : n = 1 := by omega
      rw [List.filter_cons_of_neg hs', hrest]
      refine ⟨by omega, List.perm_append_singleton _ _, ?_⟩
      intro f hf
      rwa [List.mem_singleton.mp hf]

theorem Os.sharers_of_not_shared (h : s.shared page = false) : s.sharers page = ∅ :=
  Os.sharers_of_none (by simpa [Os.shared] using h)

theorem drop_eq : drop H p page = dropAll H p [page] := by
  rw [← dropAll_drop, dropAll_nil]

theorem Os.setFlags_pcbs_of_ne {f : BitVec 32} (h : q ≠ p) :
    (s.setFlags p f).pcbs q = s.pcbs q := Os.setPcb_of_ne h

theorem Os.setFlags_pages {f : BitVec 32} : ((s.setFlags p f).pcbs p).pages = (s.pcbs p).pages := by
  unfold Os.setFlags
  rw [Os.setPcb_self]
  rfl

/-- Whether a process is live depends on the status that was set last. -/
theorem status_live (flags st : BitVec 32) :
    ((flags &&& ~~~processStatusMask) ||| st) &&& statusLive = st &&& statusLive := by
  apply BitVec.eq_of_getLsbD_eq
  intro i _
  have h : statusLive.getLsbD i = (statusLive.getLsbD i && processStatusMask.getLsbD i) := by
    rw [← BitVec.getLsbD_and]
    rfl
  rw [BitVec.getLsbD_and, BitVec.getLsbD_or, BitVec.getLsbD_and, BitVec.getLsbD_not,
    BitVec.getLsbD_and, h]
  cases processStatusMask.getLsbD i <;> simp

theorem Os.live_setStatus {st : BitVec 32} :
    (processSetStatus s p st).Live p ↔ st &&& statusLive ≠ 0 := by
  unfold Os.Live processSetStatus Os.setFlags
  rw [Os.setPcb_self, status_live]

/-- Without a process the other live ones keep their pages. -/
theorem Os.owners_without (hdead : ¬ s'.Live p) (hpcbs : ∀ q ≠ p, s'.pcbs q = s.pcbs q) :
    s'.owners = fun r => (s.owners r).erase p := by
  funext r
  ext q
  rw [Os.mem_owners, Finset.mem_erase, Os.mem_owners]
  rcases eq_or_ne q p with rfl | hq
  · exact iff_of_false (fun h => hdead h.1) fun h => h.1 rfl
  · unfold Os.Live
    rw [hpcbs q hq]
    exact (and_iff_right hq).symm

/-- The pages of a process that has ended come back, each once, and the others keep theirs. -/
theorem Os.Inv.freeResources (h : s.Inv lo hi) (hp : s.Live p) (hlo : 0 < lo) (f : BitVec 32) :
    ∃ s', processFreeResources (s.setFlags p f) p = .ok s' ∧ s'.Inv lo hi := by
  have hfur := h.furnished p hp
  have hone := hfur.one_le
  have hmax : 0 + (s.pcbs p).npages.toNat ≤ processMaxPages := by
    have := hfur.le_max
    omega
  let b := s.pcbs p
  let shared := (b.frames 0 b.npages.toNat).filter s.shared
  let n := (b.npages - shared.length).toNat
  obtain ⟨hle, hperm, hprivate⟩ := hfur.filter_frames (n := n) rfl
  have hholds : ∀ r ∈ b.pages, p ∈ s.owners r := fun r hr => Os.mem_owners.mpr ⟨hp, hr⟩
  have hmem : ∀ r, r ∈ shared ++ b.frames 0 n ++ [b.stackPage] ↔ r ∈ b.pages := fun r =>
    (hperm.append_right _).mem_iff
  have hnodup : (shared ++ b.frames 0 n ++ [b.stackPage]).Nodup :=
    (hperm.append_right _).nodup_iff.mpr hfur.nodup
  obtain ⟨hnodup₁, -, hstack⟩ := List.nodup_append.mp hnodup
  obtain ⟨-, hnodup₂, hapart⟩ := List.nodup_append.mp hnodup₁
  -- the first loop
  let s₁ := s.setFlags p processStatusFree
  have hpcb₁ : s₁.pcbs p = { b with flags := processStatusFree } := Os.setPcb_self
  have hbooks₁ : Books s₁ lo hi s.owners := h.books.setPcb _
  have hframes₁ : (s₁.pcbs p).frames 0 b.npages.toNat = b.frames 0 b.npages.toNat := by
    rw [hpcb₁]
    rfl
  obtain ⟨s₂, e₂, hbooks₂, hkeeps, hnpages⟩ := hbooks₁.freeSharedPtes (q := p) hmax hlo
    (by
      rw [hframes₁]
      exact (List.nodup_append.mp hfur.nodup).1)
    (fun f hf => hholds f (List.mem_append_left _ (hframes₁ ▸ hf)))
  rw [hframes₁, show s₁.shared = s.shared from rfl] at hbooks₂ hnpages
  -- the second loop
  have hn : (s₂.pcbs p).npages.toNat = n := by rw [hnpages, hpcb₁]
  have hframes₂ : (s₂.pcbs p).frames 0 n = b.frames 0 n := by
    rw [hkeeps.frames (by omega), hpcb₁]
    rfl
  obtain ⟨m, fs, e₃, hbooks₃⟩ := hbooks₂.freePtes (q := p)
    (show 0 + n ≤ processMaxPages by omega)
    (fun j _ hj => by
      rw [hkeeps.wordAt (by omega), hpcb₁]
      exact hfur.setup j (by omega))
    (hframes₂ ▸ hnodup₂)
    (fun f hf => by
      rw [hframes₂] at hf
      refine ⟨?_, ?_⟩
      · rw [dropAll_of_not_mem fun hs => hapart f hs f hf rfl]
        exact hholds f ((hmem f).mp (by simp [hf]))
      · exact Os.sharers_of_not_shared (hkeeps.shared.trans (hprivate f hf)))
  rw [hframes₂, dropAll_append] at hbooks₃
  -- the system stack
  obtain ⟨m', fs', e₄, hbooks₄⟩ := hbooks₃.freePage (q := p) b.stackPage
    (by
      rw [dropAll_of_not_mem fun hs => hstack _ hs _ (List.mem_singleton_self _) rfl]
      exact hholds _ (by simp [PCB.pages]))
    (by
      rw [show Os.sharers { s₂ with freemap := m, frees := fs } b.stackPage =
        s₂.sharers b.stackPage from Os.sharers_congr rfl]
      exact Finset.subset_empty.mp ((hkeeps.sharers _).trans (by
        rw [show s₁.sharers b.stackPage = s.sharers b.stackPage from Os.sharers_congr rfl]
        exact hfur.stack.subset)))
  rw [drop_eq, dropAll_append, dropAll_eq fun r hr => (hmem r).mpr (Os.mem_owners.mp hr).2]
    at hbooks₄
  let s₄ : Os := { s₂ with freemap := m', frees := fs' }
  have hrun : processFreeResources (s.setFlags p f) p =
      .ok (processSetStatus s₄ p processStatusFree) := by
    unfold processFreeResources
    simp only [Os.setFlags_setFlags]
    rw [show ((s.setFlags p processStatusFree).pcbs p).npages = b.npages by rw [hpcb₁], e₂, ok_bind,
      hn, e₃, ok_bind]
    simp only [hkeeps.stack, hpcb₁]
    rw [show b.sysStackArea.toNat / memoryPageSize = b.stackPage from rfl, e₄]
    rfl
  refine ⟨_, hrun, ?_⟩
  have hpcbs : ∀ q ≠ p, (processSetStatus s₄ p processStatusFree).pcbs q = s.pcbs q := by
    intro q hq
    unfold processSetStatus
    rw [Os.setFlags_pcbs_of_ne hq]
    exact (hkeeps.pcbs q hq).trans (Os.setFlags_pcbs_of_ne hq)
  have hdead : ¬ (processSetStatus s₄ p processStatusFree).Live p := by
    rw [Os.live_setStatus]
    decide
  constructor
  · rw [Os.owners_without hdead hpcbs]
    exact hbooks₄.setPcb _
  · intro q hq
    have hne : q ≠ p := fun he => hdead (he ▸ hq)
    have hlive : s.Live q := by
      unfold Os.Live at hq
      rwa [hpcbs q hne] at hq
    refine (h.furnished q hlive).congr (hpcbs q hne) (fun r _ hr => ?_) ?_
    · exact (hkeeps.shared (r := r)).trans hr
    · rw [show (processSetStatus s₄ p processStatusFree).sharers (s.pcbs q).stackPage =
        s₂.sharers (s.pcbs q).stackPage from Os.sharers_congr rfl]
      exact Finset.subset_empty.mp ((hkeeps.sharers _).trans (by
        rw [show s₁.sharers (s.pcbs q).stackPage = s.sharers (s.pcbs q).stackPage from
          Os.sharers_congr rfl]
        exact (h.furnished q hlive).stack.subset))

/-- One more entry of the page table. -/
theorem PCB.append {b : PCB} {pte : BitVec 32} (h : 0 ≤ b.npages ∧ b.npages.toNat < processMaxPages)
    {b' : PCB} (hb : b' = { b with
      pagetable := Function.update b.pagetable ⟨b.npages.toNat, h.2⟩ pte
      npages := b.npages + 1 }) :
    b'.wordAt b.npages.toNat = pte ∧ ∀ j < b.npages.toNat, b'.wordAt j = b.wordAt j := by
  subst hb
  constructor
  · unfold PCB.wordAt
    rw [dif_pos h.2]
    exact Function.update_self _ _ _
  · intro j hj
    have hlt : j < processMaxPages := by omega
    unfold PCB.wordAt
    rw [dif_pos hlt, dif_pos hlt]
    exact Function.update_of_ne (fun he => hj.ne (congrArg Fin.val he)) _ _

theorem setupPte_ofNat (hp : page < memoryPageSize) :
    (memorySetupPte (BitVec.ofNat 32 page)).toNat / memoryPageSize = page := by
  rw [setupPte_frame, BitVec.toNat_ofNat]
  unfold memoryPageSize at *
  omega

/-- The pages of a process with one more entry. -/
theorem PCB.pages_append {b b' : PCB} (h : 0 ≤ b.npages ∧ b.npages.toNat < processMaxPages)
    (hp : page < memoryPageSize) (hb : b' = { b with
      pagetable := Function.update b.pagetable ⟨b.npages.toNat, h.2⟩
        (memorySetupPte (BitVec.ofNat 32 page))
      npages := b.npages + 1 }) :
    b'.pages = b.frames 0 b.npages.toNat ++ [page] ++ [b.stackPage] := by
  obtain ⟨hnew, hold⟩ := PCB.append h hb
  have hn : b'.npages.toNat = b.npages.toNat + 1 := by
    rw [hb]
    change (b.npages + 1).toNat = _
    omega
  have hstack : b'.stackPage = b.stackPage := by
    rw [hb]
    rfl
  have hframes : b'.frames 0 b.npages.toNat = b.frames 0 b.npages.toNat := by
    apply List.map_congr_left
    intro j hj
    have := List.mem_range'_1.mp hj
    unfold PCB.frame
    rw [hold j (by omega)]
  unfold PCB.pages
  rw [hn, hstack, PCB.frames, List.range'_concat, List.map_append]
  change b'.frames 0 b.npages.toNat ++ [b'.frame (0 + 1 * b.npages.toNat)] ++ _ = _
  rw [hframes, Nat.one_mul, Nat.zero_add, PCB.frame, hnew, setupPte_ofNat hp]

/-- Live processes own no page 0. -/
theorem Os.Inv.ne_zero (h : s.Inv lo hi) (hlo : 0 < lo) (hp : s.Live p)
    (hr : r ∈ (s.pcbs p).pages) : r ≠ 0 := by
  have := Finset.mem_Ico.mp (h.books.mem_Ico (Os.mem_owners.mpr ⟨hp, hr⟩))
  omega

/-- A live process maps a page that the table has for it. -/
theorem Os.Inv.map (h : s.Inv lo hi) (hlo : 0 < lo) (hp : s.Live p) (hle : (s.pcbs p).npages ≤ 15)
    (hnew : page ∉ (s.pcbs p).pages) {s₁ : Os} (hpcbs : s₁.pcbs = s.pcbs)
    (hb : Books s₁ lo hi (Function.update s.owners page (insert p (s.owners page))))
    (hshared : ∀ r ≠ 0, s.shared r = true → s₁.shared r = true) (hpage : s₁.shared page = true)
    (hstack : ∀ q, s.Live q → s₁.sharers (s.pcbs q).stackPage = ∅) :
    ∃ s', s₁.appendPte p (memorySetupPte (BitVec.ofNat 32 page)) = .ok s' ∧ s'.Inv lo hi := by
  have hfur := h.furnished p hp
  have hone := hfur.one_le
  have hbound : 0 ≤ (s.pcbs p).npages ∧ (s.pcbs p).npages.toNat < processMaxPages := by
    unfold processMaxPages
    omega
  have hlt : page < memoryPageSize := by
    have hIco : page ∈ Finset.Ico lo hi := hb.held page (by
      rw [Function.update_self]
      exact Finset.insert_ne_empty _ _)
    exact hb.sound.lt_max (Finset.mem_Ico.mp hIco).2
  let b' : PCB := { s.pcbs p with
    pagetable := Function.update (s.pcbs p).pagetable ⟨(s.pcbs p).npages.toNat, hbound.2⟩
      (memorySetupPte (BitVec.ofNat 32 page))
    npages := (s.pcbs p).npages + 1 }
  have hrun : s₁.appendPte p (memorySetupPte (BitVec.ofNat 32 page)) = .ok (s₁.setPcb p b') := by
    unfold Os.appendPte
    simp only [hpcbs]
    rw [dif_pos hbound]
  have hpages : b'.pages = _ := PCB.pages_append hbound hlt rfl
  have hself : (s₁.setPcb p b').pcbs p = b' := Os.setPcb_self
  have hother : ∀ q ≠ p, (s₁.setPcb p b').pcbs q = s.pcbs q := fun q hq => by
    rw [Os.setPcb_of_ne hq, hpcbs]
  have hlive : ∀ q, (s₁.setPcb p b').Live q ↔ s.Live q := by
    intro q
    unfold Os.Live
    rcases eq_or_ne q p with rfl | hq
    · rw [hself]
    · rw [hother q hq]
  have hmem : ∀ r, r ∈ b'.pages ↔ r = page ∨ r ∈ (s.pcbs p).pages := by
    intro r
    rw [hpages]
    simp only [PCB.pages, List.mem_append, List.mem_singleton]
    tauto
  have howners : (s₁.setPcb p b').owners =
      Function.update s.owners page (insert p (s.owners page)) := by
    funext r
    ext q
    rw [Os.mem_owners, hlive]
    rcases eq_or_ne r page with rfl | hr
    · rw [Function.update_self, Finset.mem_insert, Os.mem_owners]
      rcases eq_or_ne q p with rfl | hq
      · rw [hself, hmem]
        simp [hp]
      · rw [hother q hq, or_iff_right hq]
    · rw [Function.update_of_ne hr, Os.mem_owners]
      rcases eq_or_ne q p with rfl | hq
      · rw [hself, hmem, or_iff_right hr]
      · rw [hother q hq]
  refine ⟨_, hrun, howners ▸ hb.setPcb _, fun q hq => ?_⟩
  rw [hlive] at hq
  have hstack' : (s₁.setPcb p b').sharers (s.pcbs q).stackPage = ∅ :=
    (Os.sharers_congr rfl).trans (hstack q hq)
  rcases eq_or_ne q p with rfl | hne
  · obtain ⟨hnew', hold⟩ := PCB.append (b := s.pcbs q) hbound (show b' = _ from rfl)
    have hcases : ∀ i < b'.npages.toNat, i < (s.pcbs q).npages.toNat ∨
        i = (s.pcbs q).npages.toNat := by
      intro i hi
      change i < ((s.pcbs q).npages + 1).toNat at hi
      omega
    refine ⟨?_, ?_, ?_, ?_, ?_, ?_⟩ <;> rw [hself]
    · change 1 ≤ (s.pcbs q).npages + 1
      omega
    · change (s.pcbs q).npages + 1 ≤ 16
      omega
    · intro i hi
      rcases hcases i hi with hi | rfl
      · rw [hold i hi]
        exact hfur.setup i hi
      · exact ⟨_, hnew'⟩
    · rw [hpages, List.append_assoc]
      exact List.perm_middle.nodup_iff.mpr (List.nodup_cons.mpr ⟨hnew, hfur.nodup⟩)
    · intro i hi hi'
      change s₁.shared (b'.frame i) = true
      unfold PCB.frame
      rcases hcases i hi' with hi' | rfl
      · rw [hold i hi']
        exact hshared _ (h.ne_zero hlo hp (PCB.frame_mem hi')) (hfur.shared i hi hi')
      · rw [hnew', setupPte_ofNat hlt]
        exact hpage
    · exact hstack'
  · refine (h.furnished q hq).congr (hother q hne) (fun r hr => ?_) hstack'
    exact hshared r (h.ne_zero hlo hq hr)

end DlxOs.Memory
