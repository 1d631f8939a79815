import DlxOs.Memory.Books
import DlxOs.Memory.Copies

/-!
# The pages of a process are given back

The two loops of `ProcessFreeResources` take the process from the books of its
shared pages and of the others, each page once. The first loop lowers `npages` by
the number of the shared pages, which leaves the other pages to the second one.
-/

namespace DlxOs.Memory

open Sharing
open Kernel (Halt PcbPtr ok_bind)

variable {s s' s'' : Os} {p q : PcbPtr} {page r lo hi i rounds : ℕ} {b : PCB}
  {H : ℕ → Finset PcbPtr}

/-- The page of an entry of the page table. -/
def PCB.frame (b : PCB) (i : ℕ) : ℕ := (b.wordAt i).toNat / memoryPageSize

def PCB.frames (b : PCB) (i rounds : ℕ) : List ℕ := (List.range' i rounds).map b.frame

def PCB.stackPage (b : PCB) : ℕ := b.sysStackArea.toNat / memoryPageSize

/-- The table has an entry for the page. -/
def Os.shared (s : Os) (page : ℕ) : Bool := (s.findEntry page).isSome

theorem PCB.frames_succ :
    b.frames i (rounds + 1) = b.frame i :: b.frames (i + 1) rounds := rfl

/-- What the release of the pages of a process keeps. -/
structure Keeps (s s' : Os) (q : PcbPtr) : Prop where
  pcbs : ∀ p ≠ q, s'.pcbs p = s.pcbs p
  table : (s'.pcbs q).pagetable = (s.pcbs q).pagetable
  stack : (s'.pcbs q).sysStackArea = (s.pcbs q).sysStackArea
  entries : ∀ i, (s'.spages i).page = (s.spages i).page
  sharers : ∀ r, s'.sharers r ⊆ s.sharers r

namespace Keeps

theorem refl (s : Os) (q : PcbPtr) : Keeps s s q :=
  ⟨fun _ _ => rfl, rfl, rfl, fun _ => rfl, fun _ => Finset.Subset.refl _⟩

theorem trans (h : Keeps s s' q) (h' : Keeps s' s'' q) : Keeps s s'' q where
  pcbs p hp := (h'.pcbs p hp).trans (h.pcbs p hp)
  table := h'.table.trans h.table
  stack := h'.stack.trans h.stack
  entries i := (h'.entries i).trans (h.entries i)
  sharers r := (h'.sharers r).trans (h.sharers r)

theorem shared (h : Keeps s s' q) : s'.shared r = s.shared r := by
  have : s'.findEntry r = s.findEntry r := Os.findEntry_congr fun j => by rw [h.entries j]
  unfold Os.shared
  rw [this]

theorem wordAt (h : Keeps s s' q) (hi : i < processMaxPages) :
    (s'.pcbs q).wordAt i = (s.pcbs q).wordAt i := by
  unfold PCB.wordAt
  rw [dif_pos hi, dif_pos hi, h.table]

theorem frame (h : Keeps s s' q) (hi : i < processMaxPages) :
    (s'.pcbs q).frame i = (s.pcbs q).frame i := by
  unfold PCB.frame
  rw [h.wordAt hi]

theorem frames (h : Keeps s s' q) (hi : i + rounds ≤ processMaxPages) :
    (s'.pcbs q).frames i rounds = (s.pcbs q).frames i rounds := by
  unfold PCB.frames
  apply List.map_congr_left
  intro j hj
  have := List.mem_range'_1.mp hj
  exact h.frame (by omega)

theorem freemap (m : Freemap) (f : List FreeCall) :
    Keeps s { s with freemap := m, frees := f } q :=
  ⟨fun _ _ => rfl, rfl, rfl, fun _ => rfl, fun _ => (Os.sharers_congr rfl).subset⟩

end Keeps

/-- A page that is not in the table is left to the second loop. -/
theorem memoryFreeSharedPte_private (hlt : i < processMaxPages) (hne : (s.pcbs q).frame i ≠ 0)
    (hs : s.shared ((s.pcbs q).frame i) = false) :
    memoryFreeSharedPte s q i = .ok (-1, s) := by
  have hnone : s.findEntry ((s.pcbs q).frame i) = none := by simpa [Os.shared] using hs
  unfold memoryFreeSharedPte
  rw [PCB.entry_eq hlt.le, ok_bind]
  unfold PCB.frame at hne hnone
  simp only [if_neg hne, hnone]
  rfl

/-- The bits of an entry without one of its processes. -/
def without (bits : BitVec 32) (q : PcbPtr) : BitVec 32 :=
  bits &&& (1#32 <<< q.val ^^^ 0xffffffff#32)

/-- A process is taken off the table: either the books are as if it had left the page already, or
it is the last holder and the page is to be freed. -/
theorem Books.withdraw (h : Books s lo hi H) (hq : q ∈ H page) {e : Fin memoryMaxSharedPages}
    (he : s.findEntry page = some e) (s₁ : Os)
    (hs₁ : s₁ = s.setEntry e ⟨page, without (s.spages e).bits q⟩) :
    (countBits (without (s.spages e).bits q) = 0 → Books s₁ lo hi H ∧ s₁.sharers page = ∅) ∧
      (countBits (without (s.spages e).bits q) ≠ 0 → Books s₁ lo hi (drop H q page)) ∧
      ∀ r, s₁.sharers r ⊆ s.sharers r := by
  obtain ⟨hself, hother⟩ := Os.sharers_setBits (without (s.spages e).bits q) he
  rw [← hs₁] at hself hother
  have hIco := h.mem_Ico hq
  have hagrees := h.agrees page hIco
  have hbits : sharersOf (without (s.spages e).bits q) = (s.sharers page).erase q := by
    rw [Os.sharers_of_some he]
    exact sharersOf_and
  have hentries : ∀ j, (s₁.spages j).page ≠ 0 → (s₁.spages j).page ∈ Finset.Ico lo hi := by
    intro j hj
    rw [hs₁] at hj ⊢
    rcases eq_or_ne j e with rfl | hne
    · rw [Os.setEntry_self]
      exact hIco
    · rw [Os.setEntry_of_ne hne] at hj ⊢
      exact h.entries j hj
  rw [Ne, countBits_eq_zero, hbits, hagrees.last_iff hq]
  rw [hbits] at hself
  refine ⟨fun hlast => ⟨⟨hs₁ ▸ h.sound, hs₁ ▸ h.free, ?_, h.held, hentries, hs₁ ▸ h.frees⟩, ?_⟩,
    fun hmore => ⟨hs₁ ▸ h.sound, ?_, ?_, ?_, hentries, hs₁ ▸ h.frees⟩, ?_⟩
  · intro r hr
    rcases eq_or_ne r page with rfl | hrp
    · rw [hself, (hagrees.last_iff hq).mpr hlast]
      refine .inr ⟨rfl, ?_⟩
      rw [← Finset.insert_erase hq, hlast]
      exact (Finset.card_singleton q).le
    · rw [hother r hrp]
      exact h.agrees r hr
  · rw [hself, (hagrees.last_iff hq).mpr hlast]
  · intro r hr
    have hfree : r ∈ s₁.freemap.free ↔ H r = ∅ := hs₁ ▸ h.free r hr
    rw [hfree]
    rcases eq_or_ne r page with rfl | hrp
    · rw [drop_self]
      exact iff_of_false (Finset.ne_empty_of_mem hq) hmore
    · rw [drop_of_ne hrp]
  · intro r hr
    rcases eq_or_ne r page with rfl | hrp
    · rw [drop_self, hself]
      exact hagrees.leave
    · rw [drop_of_ne hrp, hother r hrp]
      exact h.agrees r hr
  · intro r hr
    rcases eq_or_ne r page with rfl | hrp
    · exact hIco
    · rw [drop_of_ne hrp] at hr
      exact h.held r hr
  · intro r
    rcases eq_or_ne r page with rfl | hrp
    · rw [hself]
      exact Finset.erase_subset q _
    · rw [hother r hrp]

/-- A process leaves a page of the table, which is freed when it was the last one. -/
theorem Books.leave (h : Books s lo hi H) (hlt : i < processMaxPages) (hlo : 0 < lo)
    (hq : q ∈ H ((s.pcbs q).frame i)) (hs : s.shared ((s.pcbs q).frame i) = true) :
    ∃ r s', memoryFreeSharedPte s q i = .ok (r, s') ∧
      Books s' lo hi (drop H q ((s.pcbs q).frame i)) ∧ Keeps s s' q ∧
      (s'.pcbs q).npages = (s.pcbs q).npages - 1 := by
  obtain ⟨e, he⟩ := Option.isSome_iff_exists.mp hs
  have hne : (s.pcbs q).frame i ≠ 0 := by
    have := Finset.mem_Ico.mp (h.mem_Ico hq)
    omega
  have hpage := Os.findEntry_some he
  obtain ⟨hlast, hmore, hsub⟩ := h.withdraw hq he _ rfl
  let bits := without (s.spages e).bits q
  let s₁ := s.setEntry e ⟨(s.pcbs q).frame i, bits⟩
  let s₂ := s₁.setPcb q { s.pcbs q with npages := (s.pcbs q).npages - 1 }
  have hpcb : s₂.pcbs q = { s.pcbs q with npages := (s.pcbs q).npages - 1 } := Os.setPcb_self
  have hkeeps : Keeps s s₂ q := by
    refine ⟨fun p hp => ?_, ?_, ?_, fun j => ?_, fun r => ?_⟩
    · exact Os.setPcb_of_ne hp
    · rw [hpcb]
    · rw [hpcb]
    · change (s₁.spages j).page = _
      rcases eq_or_ne j e with rfl | hje
      · rw [Os.setEntry_self, hpage]
      · rw [Os.setEntry_of_ne hje]
    · rw [show s₂.sharers r = s₁.sharers r from Os.sharers_congr rfl]
      exact hsub r
  have hnpages : (s₂.pcbs q).npages = (s.pcbs q).npages - 1 := congrArg PCB.npages Os.setPcb_self
  have hrun : memoryFreeSharedPte s q i =
      if countBits bits = 0 then
        s₂.freePage ((s.pcbs q).frame i) >>= fun s => .ok ((countBits bits : ℤ), s)
      else .ok ((countBits bits : ℤ), s₂) := by
    unfold memoryFreeSharedPte
    rw [PCB.entry_eq hlt.le, ok_bind]
    unfold PCB.frame at hne he
    simp only [if_neg hne, he, hpage]
    rfl
  rw [hrun]
  by_cases hz : countBits bits = 0
  · obtain ⟨hb, hsh⟩ := hlast hz
    obtain ⟨m, f, e', hb'⟩ := (hb.setPcb (p := q)
      { s.pcbs q with npages := (s.pcbs q).npages - 1 }).freePage _ hq
        ((Os.sharers_congr rfl).trans hsh)
    rw [if_pos hz, e', ok_bind]
    exact ⟨_, _, rfl, hb', hkeeps.trans (.freemap m f), hnpages⟩
  · rw [if_neg hz]
    exact ⟨_, _, rfl, (hmore hz).setPcb _, hkeeps, hnpages⟩

/-- The first loop takes the process off the shared pages of its table, and counts them. -/
theorem Books.freeSharedPtes (h : Books s lo hi H) (hlt : i + rounds ≤ processMaxPages)
    (hlo : 0 < lo) (hn : ((s.pcbs q).frames i rounds).Nodup)
    (hq : ∀ f ∈ (s.pcbs q).frames i rounds, q ∈ H f) :
    ∃ s', freeSharedPtes q rounds i s = .ok s' ∧
      Books s' lo hi (dropAll H q (((s.pcbs q).frames i rounds).filter s.shared)) ∧
      Keeps s s' q ∧ (s'.pcbs q).npages =
        (s.pcbs q).npages - (((s.pcbs q).frames i rounds).filter s.shared).length := by
  induction rounds generalizing s H i with
  | zero => exact ⟨s, rfl, by simpa [PCB.frames] using h, .refl s q, by simp [PCB.frames]⟩
  | succ rounds ih =>
      rw [PCB.frames_succ] at hn hq ⊢
      obtain ⟨hnot, hn⟩ := List.nodup_cons.mp hn
      have hq₀ := hq _ (List.mem_cons_self ..)
      have hq' : ∀ f ∈ (s.pcbs q).frames (i + 1) rounds, q ∈ H f := fun f hf =>
        hq f (List.mem_cons_of_mem _ hf)
      unfold Memory.freeSharedPtes
      by_cases hs : s.shared ((s.pcbs q).frame i) = true
      · obtain ⟨r, s', e, hb, hk, hnp⟩ := h.leave (by omega) hlo hq₀ hs
        have hframes : (s'.pcbs q).frames (i + 1) rounds = (s.pcbs q).frames (i + 1) rounds :=
          hk.frames (by omega)
        have hshared : s'.shared = s.shared := funext fun r => hk.shared
        obtain ⟨t, e', hb', hk', hnp'⟩ := ih hb (by omega) (hframes ▸ hn) (fun f hf => by
          rw [hframes] at hf
          rw [drop_of_ne (ne_of_mem_of_not_mem hf hnot)]
          exact hq' f hf)
        rw [hframes, hshared] at hb' hnp'
        rw [dropAll_drop] at hb'
        rw [List.filter_cons_of_pos hs]
        refine ⟨t, ?_, hb', hk.trans hk', ?_⟩
        · rw [e, ok_bind]
          exact e'
        · rw [hnp', hnp, List.length_cons]
          omega
      · have hne : (s.pcbs q).frame i ≠ 0 := by
          have := Finset.mem_Ico.mp (h.mem_Ico hq₀)
          omega
        obtain ⟨t, e', rest⟩ := ih h (by omega) hn hq'
        rw [List.filter_cons_of_neg hs]
        refine ⟨t, ?_, rest⟩
        rw [memoryFreeSharedPte_private (by omega) hne (Bool.eq_false_iff.mpr hs), ok_bind]
        exact e'

/-- The second loop frees pages that are not shared. -/
theorem Books.freePtes (h : Books s lo hi H) (hlt : i + rounds ≤ processMaxPages)
    (hset : ∀ j, i ≤ j → j < i + rounds → ∃ page, (s.pcbs q).wordAt j = memorySetupPte page)
    (hn : ((s.pcbs q).frames i rounds).Nodup)
    (hq : ∀ f ∈ (s.pcbs q).frames i rounds, q ∈ H f ∧ s.sharers f = ∅) :
    ∃ m f, freePtes q rounds i s = .ok { s with freemap := m, frees := f } ∧
      Books { s with freemap := m, frees := f } lo hi (dropAll H q ((s.pcbs q).frames i rounds)) := by
  induction rounds generalizing s H i with
  | zero => exact ⟨s.freemap, s.frees, rfl, by simpa [PCB.frames] using h⟩
  | succ rounds ih =>
      rw [PCB.frames_succ] at hn hq ⊢
      obtain ⟨hnot, hn⟩ := List.nodup_cons.mp hn
      obtain ⟨hq₀, hs₀⟩ := hq _ (List.mem_cons_self ..)
      obtain ⟨page, hp⟩ := hset i le_rfl (by omega)
      have hframe : ((s.pcbs q).wordAt i &&& memoryPteMask).toNat / memoryPageSize =
          (s.pcbs q).frame i := by
        unfold PCB.frame
        rw [hp, setupPte_mask, setupPte_toNat, setupPte_frame,
          Nat.mul_div_cancel _ (by decide)]
      obtain ⟨m, f, e, hb⟩ := h.freePage _ hq₀ hs₀
      obtain ⟨m', f', e', hb'⟩ := ih hb (by omega) (fun j hj hj' => hset j (by omega) (by omega)) hn
        fun r hr => by
          rw [drop_of_ne (ne_of_mem_of_not_mem (show r ∈ (s.pcbs q).frames (i + 1) rounds from hr)
            hnot)]
          refine ⟨(hq r (List.mem_cons_of_mem _ hr)).1, ?_⟩
          rw [show Os.sharers { s with freemap := m, frees := f } r = s.sharers r from
            Os.sharers_congr rfl]
          exact (hq r (List.mem_cons_of_mem _ hr)).2
      rw [dropAll_drop] at hb'
      refine ⟨m', f', ?_, hb'⟩
      unfold Memory.freePtes
      rw [PCB.entry_eq (by omega), ok_bind, memoryFreePte, hframe, e, ok_bind]
      exact e'

end DlxOs.Memory
