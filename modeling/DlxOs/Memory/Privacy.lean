import DlxOs.Memory.ForkPages
import DlxOs.Memory.LifeCycle

/-!
# Pages that a process has for itself

The first page and the system stack of a live process are shared with nobody. Two
live processes have a page in common only if both have mapped it, and the table
has both of them down for it.

## Main results

* `Os.Inv.step_private`: the first pages stay private.
* `Os.Inv.isolated`: what two live processes have in common.
* `Os.Inv.copy_frame`: a copy to one process leaves the pages of the others.
-/

namespace DlxOs.Memory

open Sharing
open Kernel (Halt PcbPtr ok_bind ok_bind_inv processStatusFree processStatusRunnable
  processStatusZombie processTypeSystem processTypeUser)

variable {s s' : Os} {p q : PcbPtr} {page r lo hi i rounds : ℕ}

/-! ### What a release leaves alone -/

theorem Keeps.of_spages (hpcbs : ∀ q ≠ p, s'.pcbs q = s.pcbs q)
    (htable : (s'.pcbs p).pagetable = (s.pcbs p).pagetable)
    (hstack : (s'.pcbs p).sysStackArea = (s.pcbs p).sysStackArea)
    (h : s'.spages = s.spages) : Keeps s s' p :=
  ⟨hpcbs, htable, hstack, fun i => by rw [h], fun _ => (Os.sharers_congr h).subset⟩

theorem Os.setFlags_keeps (f : BitVec 32) : Keeps s (s.setFlags p f) p := by
  have hpcb : (s.setFlags p f).pcbs p = { s.pcbs p with flags := f } := Os.setPcb_self
  refine .of_spages (fun q hq => Os.setFlags_pcbs_of_ne hq) ?_ ?_ rfl
  · rw [hpcb]
  · rw [hpcb]

theorem Os.freePage_keeps (e : s.freePage page = .ok s') : Keeps s s' p := by
  obtain ⟨m, -, e⟩ := ok_bind_inv e
  obtain rfl := Except.ok.inj e
  exact .freemap _ _

/-- The entry of a process is taken out of the table, or nothing happens. -/
theorem memoryFreeSharedPte_keeps {rv : ℤ} (e : memoryFreeSharedPte s p i = .ok (rv, s')) :
    Keeps s s' p := by
  obtain ⟨pte, -, e⟩ := ok_bind_inv e
  simp only at e
  split at e
  · cases e
  split at e
  · obtain ⟨-, rfl⟩ := Prod.mk.inj (Except.ok.inj e)
    exact .refl _ _
  next j hj =>
  have hbits := Os.sharers_setBits (without (s.spages j).bits p) hj
  rw [← Os.findEntry_some hj] at hbits
  have hentry : Keeps s (s.setEntry j ⟨(s.spages j).page, without (s.spages j).bits p⟩) p := by
    refine ⟨fun _ _ => rfl, rfl, rfl, fun k => ?_, fun r => ?_⟩
    · rcases eq_or_ne k j with rfl | hk
      · rw [Os.setEntry_self]
      · rw [Os.setEntry_of_ne hk]
    · rcases eq_or_ne r (s.spages j).page with rfl | hr
      · rw [hbits.1, Os.sharers_of_some (Os.findEntry_some hj ▸ hj)]
        unfold without
        rw [sharersOf_and]
        exact Finset.erase_subset _ _
      · rw [hbits.2 r hr]
  let t := s.setEntry j ⟨(s.spages j).page, without (s.spages j).bits p⟩
  have hcount : Keeps t (t.setPcb p { t.pcbs p with npages := (t.pcbs p).npages - 1 }) p := by
    refine .of_spages (fun q hq => Os.setPcb_of_ne hq) ?_ ?_ rfl
    · rw [Os.setPcb_self]
    · rw [Os.setPcb_self]
  split at e
  · obtain ⟨u, eu, e⟩ := ok_bind_inv e
    obtain ⟨-, rfl⟩ := Prod.mk.inj (Except.ok.inj e)
    exact (hentry.trans hcount).trans (Os.freePage_keeps eu)
  · obtain ⟨-, rfl⟩ := Prod.mk.inj (Except.ok.inj e)
    exact hentry.trans hcount

theorem freeSharedPtes_keeps (e : freeSharedPtes p rounds i s = .ok s') : Keeps s s' p := by
  induction rounds generalizing i s with
  | zero =>
      obtain rfl := Except.ok.inj e
      exact .refl _ _
  | succ rounds ih =>
      obtain ⟨⟨rv, t⟩, et, e⟩ := ok_bind_inv e
      exact (memoryFreeSharedPte_keeps et).trans (ih e)

theorem freePtes_keeps (e : freePtes p rounds i s = .ok s') : Keeps s s' p := by
  induction rounds generalizing i s with
  | zero =>
      obtain rfl := Except.ok.inj e
      exact .refl _ _
  | succ rounds ih =>
      obtain ⟨pte, -, e⟩ := ok_bind_inv e
      obtain ⟨t, et, e⟩ := ok_bind_inv e
      exact (Os.freePage_keeps et).trans (ih e)

/-- A release leaves the other PCBs, and nobody is added to the table. -/
theorem processFreeResources_keeps (e : processFreeResources s p = .ok s') :
    Keeps s s' p ∧ ¬ s'.Live p := by
  obtain ⟨t₁, e₁, e⟩ := ok_bind_inv e
  obtain ⟨t₂, e₂, e⟩ := ok_bind_inv e
  obtain ⟨t₃, e₃, e⟩ := ok_bind_inv e
  obtain rfl := Except.ok.inj e
  refine ⟨?_, fun h => Os.live_setStatus.mp h (by decide)⟩
  have hstart : Keeps s (s.setFlags p processStatusFree) p := Os.setFlags_keeps _
  have hptes : Keeps s t₂ p := (hstart.trans (freeSharedPtes_keeps e₁)).trans (freePtes_keeps e₂)
  exact (hptes.trans (Os.freePage_keeps e₃)).trans (Os.setFlags_keeps _)

/-! ### What the calls do to a first page -/

/-- `ProcessGetCodeInfo` has failed. -/
def noFile : Option ℤ → Bool
  | some fd => decide (fd < 0)
  | none => false

/-- What a fork does to PCB `p`, and what it leaves alone. -/
structure Forks (s s' : Os) (p : PcbPtr) (fd : Option ℤ) (rv : ℤ) : Prop where
  result : rv = if noFile fd then -1 else (p.val : ℤ)
  live : s'.Live p ↔ noFile fd = false
  pcbs : ∀ q ≠ p, s'.pcbs q = s.pcbs q
  sharers : ∀ r, s'.sharers r ⊆ s.sharers r
  first : (s'.pcbs p).frame 0 ∈ s.freemap.free

/-- A new process has a first page that was free, and its fork adds nobody to the table. -/
theorem processFork_forks {fd : Option ℤ} {rv : ℤ} (e : processFork s p fd = .ok (rv, s')) :
    Forks s s' p fd rv := by
  obtain ⟨u, eu, e⟩ := ok_bind_inv e
  obtain ⟨first, stack, m₁, m₂, hm₁, hne, -, -, hu⟩ := forkPages_inv eu
  obtain ⟨hlt, hfree, -, -⟩ := memoryAllocPage_inv hm₁ hne
  have hpcbs : ∀ q ≠ p, u.pcbs q = s.pcbs q := fun q hq => hu ▸ Os.took_of_ne hq
  have hspages : u.spages = s.spages := (congrArg Os.spages hu).trans rfl
  have hframe : (u.pcbs p).frame 0 = first := by
    rw [PCB.frame, hu, Os.took_wordAt, setupPte_ofNat hlt]
  have hlive : u.Live p := hu ▸ Os.took_live
  -- a process of either type only gets its flags, and one without a file gives its pages back
  have done : ∀ t, Keeps u t p → rv = (if noFile fd then -1 else (p.val : ℤ)) →
      (t.Live p ↔ noFile fd = false) → Forks s t p fd rv := by
    intro t ht hrv hl
    refine ⟨hrv, hl, fun q hq => (ht.pcbs q hq).trans (hpcbs q hq), fun r => ?_, ?_⟩
    · exact (ht.sharers r).trans (Os.sharers_congr hspages).subset
    · rw [ht.frame (by decide), hframe]
      exact hfree
  have typed : ∀ type : BitVec 32, type &&& statusLive = 0 →
      (u.setFlags p ((u.pcbs p).flags ||| type)).Live p := by
    intro type ht
    unfold Os.Live Os.setFlags
    rw [Os.setPcb_self, type_live _ _ ht]
    exact hlive
  cases fd with
  | none =>
      obtain ⟨rfl, rfl⟩ := Prod.mk.inj (Except.ok.inj e)
      exact done _ (Os.setFlags_keeps _) rfl (iff_of_true (typed _ (by decide)) rfl)
  | some fd =>
      unfold forkEnd at e
      simp only at e
      split at e
      · next hneg =>
          obtain ⟨t, et, e⟩ := ok_bind_inv e
          obtain ⟨rfl, rfl⟩ := Prod.mk.inj (Except.ok.inj e)
          obtain ⟨hkeeps, hdead⟩ := processFreeResources_keeps et
          have hno : noFile (some fd) = true := decide_eq_true hneg
          exact done _ hkeeps (by rw [if_pos hno]) (iff_of_false hdead (by simp [hno]))
      · next hpos =>
          obtain ⟨rfl, rfl⟩ := Prod.mk.inj (Except.ok.inj e)
          have hno : noFile (some fd) = false := decide_eq_false hpos
          exact done _ (Os.setFlags_keeps _) (by simp [hno])
            (iff_of_true (typed _ (by decide)) hno)

/-- One more entry leaves the first one, and the other PCBs. -/
theorem Os.appendPte_first {pte : BitVec 32} (hone : 1 ≤ (s.pcbs p).npages)
    (e : s.appendPte p pte = .ok s') :
    s'.spages = s.spages ∧ ∀ q, (s'.pcbs q).flags = (s.pcbs q).flags ∧
      (s'.pcbs q).frame 0 = (s.pcbs q).frame 0 := by
  unfold Os.appendPte at e
  simp only at e
  split at e
  · next hbound =>
      obtain rfl := Except.ok.inj e
      refine ⟨rfl, fun q => ?_⟩
      rcases eq_or_ne q p with rfl | hq
      · rw [Os.setPcb_self]
        obtain ⟨-, hold⟩ := @PCB.append (s.pcbs q) pte hbound _ rfl
        exact ⟨rfl, by rw [PCB.frame, PCB.frame, hold 0 (by omega)]⟩
      · rw [Os.setPcb_of_ne hq]
        exact ⟨rfl, rfl⟩
  · cases e

/-- A shared page that is created was free, and no other page is put into the table. -/
theorem memoryCreateSharedPage_first (hone : 1 ≤ (s.pcbs p).npages)
    (e : memoryCreateSharedPage s p = .ok (page, s')) :
    (∀ q, (s'.pcbs q).flags = (s.pcbs q).flags ∧ (s'.pcbs q).frame 0 = (s.pcbs q).frame 0) ∧
      ∀ r ≠ 0, r ∉ s.freemap.free → s'.sharers r = s.sharers r := by
  unfold memoryCreateSharedPage at e
  split at e
  · obtain ⟨-, rfl⟩ := Prod.mk.inj (Except.ok.inj e)
    exact ⟨fun _ => ⟨rfl, rfl⟩, fun _ _ _ => rfl⟩
  split at e
  · obtain ⟨-, rfl⟩ := Prod.mk.inj (Except.ok.inj e)
    exact ⟨fun _ => ⟨rfl, rfl⟩, fun _ _ _ => rfl⟩
  next i hi =>
  obtain ⟨⟨page', s₁⟩, ea, e⟩ := ok_bind_inv e
  obtain ⟨⟨page₁, m⟩, hm, ea⟩ := ok_bind_inv ea
  obtain ⟨rfl, rfl⟩ := Prod.mk.inj (Except.ok.inj ea)
  simp only at e
  split at e
  · cases e
  next hne =>
  obtain ⟨-, hfree, -, -⟩ := memoryAllocPage_inv hm hne
  obtain ⟨t, et, e⟩ := ok_bind_inv e
  obtain ⟨-, rfl⟩ := Prod.mk.inj (Except.ok.inj e)
  obtain ⟨hspages, hpcbs⟩ := Os.appendPte_first (by exact hone) et
  refine ⟨hpcbs, fun r hr hnot => ?_⟩
  have hrp : r ≠ page₁ := fun he => hnot (he ▸ hfree)
  rw [Os.sharers_congr hspages]
  exact (Os.sharers_fill _ (s := { s with freemap := m }) hi hne).2 r hr hrp

/-- Whoever maps a page that somebody shares is put down for this page only. -/
theorem mmap_first {handle rv : BitVec 32} (hone : 1 ≤ (s.pcbs p).npages)
    (still : (LifeEvent.shmat p handle).StillShared s) (e : mmap s p handle = .ok (rv, s')) :
    (∀ q, (s'.pcbs q).flags = (s.pcbs q).flags ∧ (s'.pcbs q).frame 0 = (s.pcbs q).frame 0) ∧
      ∀ r, s.sharers r = ∅ → s'.sharers r = ∅ := by
  rcases still with full | still
  · obtain ⟨-, rfl⟩ := Prod.mk.inj (Except.ok.inj ((mmap_noRoom full).symm.trans e))
    exact ⟨fun _ => ⟨rfl, rfl⟩, fun _ h => h⟩
  unfold mmap at e
  split at e
  · obtain ⟨-, rfl⟩ := Prod.mk.inj (Except.ok.inj e)
    exact ⟨fun _ => ⟨rfl, rfl⟩, fun _ h => h⟩
  next hne =>
  split at e
  · obtain ⟨-, rfl⟩ := Prod.mk.inj (Except.ok.inj e)
    exact ⟨fun _ => ⟨rfl, rfl⟩, fun _ h => h⟩
  next i hi =>
  have hbits : (s.spages i).bits ≠ 0 := still i hne hi
  -- the table gets one more bit in entry `i`
  have put : ∀ t : Os, t.spages = s.spages →
      ∀ r, s.sharers r = ∅ → (t.setEntry i ⟨(t.spages i).page,
        (t.spages i).bits ||| (1#32 <<< p.val)⟩).sharers r = ∅ := by
    intro t ht r hr
    have hpage := Os.findEntry_some hi
    have hti : t.findEntry handle.toNat = some i :=
      (Os.findEntry_congr fun j => by rw [ht]).trans hi
    have hset := Os.sharers_setBits ((t.spages i).bits ||| (1#32 <<< p.val)) hti
    rw [← Os.findEntry_some hti] at hset
    have hrp : r ≠ (t.spages i).page := by
      rintro rfl
      rw [ht, hpage, Os.sharers_of_some hi, sharersOf_eq_empty] at hr
      exact hbits hr
    rw [hset.2 r hrp, Os.sharers_congr ht]
    exact hr
  unfold mmapEntry at e
  obtain ⟨j, -, e⟩ := ok_bind_inv e
  simp only at e
  split at e
  · split at e
    · obtain ⟨t, et, e⟩ := ok_bind_inv e
      obtain ⟨-, rfl⟩ := Prod.mk.inj (Except.ok.inj e)
      obtain ⟨hspages, hpcbs⟩ := Os.appendPte_first hone et
      exact ⟨hpcbs, put t hspages⟩
    · obtain ⟨-, rfl⟩ := Prod.mk.inj (Except.ok.inj e)
      exact ⟨fun _ => ⟨rfl, rfl⟩, fun _ h => h⟩
  · obtain ⟨-, rfl⟩ := Prod.mk.inj (Except.ok.inj e)
    exact ⟨fun _ => ⟨rfl, rfl⟩, put s rfl⟩

/-! ### The first pages stay private -/

/-- The table has nobody down for the first page of a live process. -/
def Os.Private (s : Os) : Prop := ∀ p, s.Live p → s.sharers ((s.pcbs p).frame 0) = ∅

/-- The first page of a live process is one of its pages. -/
theorem Os.Inv.first_mem (h : s.Inv lo hi) (hp : s.Live p) :
    (s.pcbs p).frame 0 ∈ (s.pcbs p).pages := by
  have hone := (h.furnished p hp).one_le
  exact PCB.frame_mem (by omega)

/-- A page of a live process is not free. -/
theorem Os.Inv.not_free (h : s.Inv lo hi) (hp : s.Live p) (hr : r ∈ (s.pcbs p).pages) :
    r ∉ s.freemap.free := h.pagesOwned.not_free p hp r hr

/-- A call leaves the first pages private if it changes neither flags nor first pages, and puts
nobody down for a page that is in use by one process. -/
theorem Os.Inv.keep_private (h : s.Inv lo hi) (hlo : 0 < lo) (hs : s.Private)
    (hpcbs : ∀ q, (s'.pcbs q).flags = (s.pcbs q).flags ∧
      (s'.pcbs q).frame 0 = (s.pcbs q).frame 0)
    (hsharers : ∀ r ≠ 0, r ∉ s.freemap.free → s.sharers r = ∅ → s'.sharers r = ∅) :
    s'.Private := by
  intro q hq
  obtain ⟨hflags, hframe⟩ := hpcbs q
  have hlive : s.Live q := by
    unfold Os.Live at hq ⊢
    rwa [hflags] at hq
  have hmem := h.first_mem hlive
  rw [hframe]
  exact hsharers _ (h.ne_zero hlo hlive hmem) (h.not_free hlive hmem) (hs q hlive)

/-- Every call keeps the first pages private, `shmat` on a page that somebody shares. -/
theorem Os.Inv.step_private (h : s.Inv lo hi) (hlo : 0 < lo) (hs : s.Private) {e : LifeEvent}
    (he : e.enabled s) (still : e.StillShared s) (hstep : s.perform e = .ok s') : s'.Private := by
  cases e with
  | fork p fd =>
      obtain ⟨rv, hrun⟩ := snd_inv hstep
      have forks := processFork_forks hrun
      intro q hq
      apply Finset.subset_empty.mp
      refine (forks.sharers _).trans (Finset.subset_empty.mpr ?_)
      rcases eq_or_ne q p with rfl | hne
      · have hIco := h.books.sound.range forks.first
        exact ((h.books.free _ hIco).mp forks.first ▸ h.books.agrees _ hIco).of_empty
      · unfold Os.Live at hq
        rw [forks.pcbs q hne] at hq ⊢
        exact hs q hq
  | shmget p =>
      obtain ⟨rv, hrun⟩ := snd_inv hstep
      obtain ⟨hpcbs, hsharers⟩ := memoryCreateSharedPage_first (h.furnished p he).one_le hrun
      exact h.keep_private hlo hs hpcbs fun r hr hfree hn => (hsharers r hr hfree).trans hn
  | shmat p handle =>
      obtain ⟨rv, hrun⟩ := snd_inv hstep
      obtain ⟨hpcbs, hsharers⟩ := mmap_first (h.furnished p he).one_le still hrun
      exact h.keep_private hlo hs hpcbs fun r _ _ => hsharers r
  | exit p =>
      obtain ⟨hkeeps, hdead⟩ := processFreeResources_keeps hstep
      have hall : Keeps s s' p := (Os.setFlags_keeps _).trans hkeeps
      intro q hq
      have hne : q ≠ p := fun e => hdead (e ▸ hq)
      unfold Os.Live at hq
      rw [hall.pcbs q hne] at hq ⊢
      exact Finset.subset_empty.mp (hs q hq ▸ hall.sharers _)

/-! ### What two processes have in common -/

/-- What two live processes have in common is a page that each has mapped behind its first one,
and the table has both of them down for it. -/
theorem Os.Inv.isolated (h : s.Inv lo hi) (hs : s.Private) (hp : s.Live p) (hq : s.Live q)
    (hne : p ≠ q) (hrp : r ∈ (s.pcbs p).pages) (hrq : r ∈ (s.pcbs q).pages) :
    (p ∈ s.sharers r ∧ q ∈ s.sharers r) ∧
      ∃ i, 0 < i ∧ i < (s.pcbs p).npages.toNat ∧ (s.pcbs p).frame i = r := by
  have howners : p ∈ s.owners r ∧ q ∈ s.owners r :=
    ⟨Os.mem_owners.mpr ⟨hp, hrp⟩, Os.mem_owners.mpr ⟨hq, hrq⟩⟩
  have hsharers : s.sharers r = s.owners r := by
    rcases h.books.agrees r (h.books.mem_Ico howners.1) with he | ⟨-, hone⟩
    · exact he
    · exact absurd (Finset.card_le_one.mp hone p howners.1 q howners.2) hne
  have hsome : s.sharers r ≠ ∅ := Finset.ne_empty_of_mem (hsharers ▸ howners.1)
  refine ⟨hsharers ▸ howners, ?_⟩
  rcases List.mem_append.mp hrp with hframe | hstack
  · obtain ⟨i, hi, rfl⟩ := List.mem_map.mp hframe
    have hlt := List.mem_range'_1.mp hi
    refine ⟨i, Nat.pos_of_ne_zero ?_, by omega, rfl⟩
    rintro rfl
    exact hsome (hs p hp)
  · obtain rfl := List.mem_singleton.mp hstack
    exact absurd (h.furnished p hp).stack hsome

/-- The pages of a live process are set up. -/
theorem Os.Inv.mapped (h : s.Inv lo hi) (hp : s.Live p) : (s.pcbs p).Mapped := by
  have hf := h.furnished p hp
  refine ⟨hf.one_le, hf.le_max, fun i hi => ?_⟩
  obtain ⟨page, e⟩ := hf.setup i (by omega)
  unfold PCB.wordAt at e
  rw [dif_pos i.isLt] at e
  exact ⟨page, e⟩

/-- A copy to a live process leaves every byte of the pages that only others have. -/
theorem Os.Inv.copy_frame (h : s.Inv lo hi) (hp : s.Live p) {src dst : BitVec 32} {n : ℤ}
    {mem : Bytes} (hc : (s.pcbs p).Harmless dst.toNat n) :
    ∃ c, memoryCopySystemToUser (s.pcbs p) src dst n mem = .ok c ∧
      ∀ a, a.toNat / memoryPageSize ∉ (s.pcbs p).pages → c.mem a = mem a := by
  obtain ⟨c, e, hframe⟩ := copySystemToUser_frame (h.mapped hp) hc
  refine ⟨c, e, fun a ha => hframe a ?_⟩
  rintro ⟨i, hi, hpage⟩
  apply ha
  have hword : (s.pcbs p).frame i = a.toNat / memoryPageSize := by
    rw [hpage, PCB.frame, PCB.wordAt, dif_pos i.isLt]
  exact hword ▸ PCB.frame_mem (by omega)

end DlxOs.Memory
