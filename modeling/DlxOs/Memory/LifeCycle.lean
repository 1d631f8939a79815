import DlxOs.Library.Transition
import DlxOs.Memory.ForkPages

/-!
# Page ownership across the life of processes

A run forks processes, creates and maps shared pages and ends processes. The
pages in use are those of the live processes as long as no process maps a page
through an entry of the table whose last process is gone.
-/

namespace DlxOs.Memory

open Sharing Transition Bitmaps
open Kernel (Halt PcbPtr ok_bind ok_bind_inv processStatusFree processStatusRunnable
  processStatusWaiting processStatusZombie processStatusMask processTypeSystem processTypeUser)

variable {s s' t : Os} {p q : PcbPtr} {page r lo hi i : ℕ} {H : ℕ → Finset PcbPtr}

theorem Os.shared_congr (h : s'.spages = s.spages) : s'.shared r = s.shared r := by
  have hfind : s'.findEntry r = s.findEntry r := Os.findEntry_congr fun j => by rw [h]
  unfold Os.shared
  rw [hfind]

/-- A process that starts has two pages that nobody had. -/
theorem Os.Inv.start (h : s.Inv lo hi) (hp : ¬ s.Live p) {first stack : ℕ}
    (hfirst : s.owners first = ∅) (hstack : s.owners stack = ∅) (hne : stack ≠ first)
    (hpcbs : ∀ q ≠ p, t.pcbs q = s.pcbs q) (hspages : t.spages = s.spages) (hlive : t.Live p)
    (hnpages : (t.pcbs p).npages = 1) (hword : ∃ page, (t.pcbs p).wordAt 0 = memorySetupPte page)
    (hpages : (t.pcbs p).pages = [first, stack]) (hsharers : s.sharers stack = ∅)
    (hb : Books t lo hi (Function.update (Function.update s.owners first {p}) stack {p})) :
    t.Inv lo hi := by
  have hlives : ∀ q ≠ p, (t.Live q ↔ s.Live q) := by
    intro q hq
    unfold Os.Live
    rw [hpcbs q hq]
  have howners : ∀ r, ∀ q ≠ p, (q ∈ t.owners r ↔ q ∈ s.owners r) := by
    intro r q hq
    rw [Os.mem_owners, Os.mem_owners, hlives q hq, hpcbs q hq]
  have hself : ∀ r, p ∈ t.owners r ↔ r = first ∨ r = stack := by
    intro r
    rw [Os.mem_owners, hpages]
    simp [hlive]
  have hnew : t.owners = Function.update (Function.update s.owners first {p}) stack {p} := by
    have hbefore : ∀ r, p ∉ s.owners r := fun r hm => hp (Os.mem_owners.mp hm).1
    funext r
    ext q
    rcases eq_or_ne q p with rfl | hq
    · rw [hself]
      rcases eq_or_ne r stack with rfl | hrs
      · simp
      · rw [Function.update_of_ne hrs]
        rcases eq_or_ne r first with rfl | hrf
        · simp
        · rw [Function.update_of_ne hrf]
          exact iff_of_false (not_or.mpr ⟨hrf, hrs⟩) (hbefore r)
    · rw [howners r q hq]
      rcases eq_or_ne r stack with rfl | hrs
      · rw [Function.update_self, hstack, Finset.mem_singleton]
        exact iff_of_false (Finset.notMem_empty q) hq
      · rw [Function.update_of_ne hrs]
        rcases eq_or_ne r first with rfl | hrf
        · rw [Function.update_self, hfirst, Finset.mem_singleton]
          exact iff_of_false (Finset.notMem_empty q) hq
        · rw [Function.update_of_ne hrf]
  refine ⟨hnew ▸ hb, fun q hq => ?_⟩
  rcases eq_or_ne q p with rfl | hne'
  · refine ⟨?_, ?_, ?_, ?_, ?_, ?_⟩
    · rw [hnpages]
    · rw [hnpages]
      decide
    · intro i hi
      obtain rfl : i = 0 := by
        rw [hnpages] at hi
        omega
      exact hword
    · rw [hpages]
      simpa using hne.symm
    · intro i hi hlt
      rw [hnpages] at hlt
      omega
    · have hlast : (t.pcbs q).stackPage = stack := by
        have := congrArg List.getLast? hpages
        simpa [PCB.pages] using this
      rw [hlast, Os.sharers_congr hspages]
      exact hsharers
  · refine (h.furnished q ((hlives q hne').mp hq)).congr (hpcbs q hne') (fun r _ hr => ?_) ?_
    · rw [Os.shared_congr hspages]
      exact hr
    · rw [Os.sharers_congr hspages]
      exact (h.furnished q ((hlives q hne').mp hq)).stack

theorem Os.setPcb_self_eq : s.setPcb p (s.pcbs p) = s := by
  simp [Os.setPcb]

/-- Flags that keep a process live, or not, keep the books. -/
theorem Os.Inv.setFlags (h : s.Inv lo hi) {f : BitVec 32}
    (hf : f &&& statusLive = (s.pcbs p).flags &&& statusLive) : (s.setFlags p f).Inv lo hi := by
  have hlive : ∀ q, (s.setFlags p f).Live q ↔ s.Live q := by
    intro q
    unfold Os.Live
    rcases eq_or_ne q p with rfl | hq
    · rw [show ((s.setFlags q f).pcbs q).flags = f from congrArg PCB.flags Os.setPcb_self, hf]
    · rw [Os.setFlags_pcbs_of_ne hq]
  have hpages : ∀ q, ((s.setFlags p f).pcbs q).pages = (s.pcbs q).pages := by
    intro q
    rcases eq_or_ne q p with rfl | hq
    · exact Os.setFlags_pages
    · rw [Os.setFlags_pcbs_of_ne hq]
  have howners : (s.setFlags p f).owners = s.owners := by
    funext r
    ext q
    rw [Os.mem_owners, Os.mem_owners, hlive, hpages]
  refine ⟨howners ▸ h.books.setPcb _, fun q hq => ?_⟩
  have hfur := h.furnished q ((hlive q).mp hq)
  rcases eq_or_ne q p with rfl | hne
  · have hpcb : (s.setFlags q f).pcbs q = { s.pcbs q with flags := f } := Os.setPcb_self
    constructor <;> rw [hpcb]
    · exact hfur.one_le
    · exact hfur.le_max
    · exact hfur.setup
    · exact hfur.nodup
    · exact hfur.shared
    · exact hfur.stack
  · exact hfur.congr (Os.setFlags_pcbs_of_ne hne) (fun r _ hr => hr) hfur.stack

theorem type_live (flags type : BitVec 32) (h : type &&& statusLive = 0) :
    (flags ||| type) &&& statusLive = flags &&& statusLive := by
  rw [BitVec.and_comm, BitVec.and_or_distrib_left, BitVec.and_comm statusLive type, h,
    BitVec.and_comm]
  exact BitVec.or_zero

/-- A new process has a page and a system stack of its own, or its pages are given back. -/
theorem Os.Inv.fork (h : s.Inv lo hi) (hlo : 0 < lo) (hp : ¬ s.Live p) {fd : Option ℤ} {rv : ℤ}
    (e : processFork s p fd = .ok (rv, s')) : s'.Inv lo hi := by
  obtain ⟨t, et, e⟩ := ok_bind_inv e
  obtain ⟨first, stack, m, m', hm, hz, hm', hz', ht⟩ := forkPages_inv et
  obtain ⟨hfirst, hb⟩ := h.books.allocated p hlo hm hz
  obtain ⟨hstack, hb'⟩ := hb.allocated p hlo hm' hz'
  have hlt := (memoryAllocPage_inv hm hz).1
  have hne : stack ≠ first := by
    rintro rfl
    rw [Function.update_self] at hstack
    exact Finset.singleton_ne_empty p hstack.1
  have hpages : (t.pcbs p).pages = [first, stack] := by
    have hframe : (t.pcbs p).frame 0 = first := by
      rw [PCB.frame, ht, Os.took_wordAt, setupPte_ofNat hlt]
    have hnpages : (t.pcbs p).npages = 1 := ht ▸ Os.took_npages
    rw [PCB.pages, hnpages, ht, Os.took_stackPage (memoryAllocPage_inv hm' hz').1, ← ht]
    change [(t.pcbs p).frame 0] ++ _ = _
    rw [hframe]
    rfl
  have hlive : t.Live p := ht ▸ Os.took_live
  have hinv : t.Inv lo hi := by
    rw [Function.update_of_ne hne] at hstack
    refine h.start hp hfirst.1 hstack.1 hne (fun q hq => ht ▸ Os.took_of_ne hq)
      ((congrArg Os.spages ht).trans rfl) hlive (ht ▸ Os.took_npages) ⟨_, ht ▸ Os.took_wordAt⟩ hpages
      ((Os.sharers_congr rfl).symm.trans hstack.2) (hb'.congr ?_ ?_ ?_)
    · exact (congrArg Os.freemap ht).trans rfl
    · exact (congrArg Os.spages ht).trans rfl
    · exact (congrArg Os.frees ht).trans rfl
  cases fd with
  | none =>
      obtain rfl := (Prod.mk.inj (Except.ok.inj e)).2
      exact hinv.setFlags (type_live _ _ (by decide))
  | some fd =>
      unfold forkEnd at e
      simp only at e
      split at e
      · have hsame : t.setFlags p (t.pcbs p).flags = t := Os.setPcb_self_eq
        obtain ⟨u, eu, hu⟩ := hinv.freeResources hlive hlo (t.pcbs p).flags
        rw [hsame] at eu
        rw [eu, ok_bind] at e
        rw [← (Prod.mk.inj (Except.ok.inj e)).2]
        exact hu
      · obtain rfl := (Prod.mk.inj (Except.ok.inj e)).2
        exact hinv.setFlags (type_live _ _ (by decide))

/-- The calls that change the pages in use. -/
inductive LifeEvent where
  /-- A free PCB is forked. -/
  | fork (pcb : PcbPtr) (fd : Option ℤ)
  | shmget (pcb : PcbPtr)
  | shmat (pcb : PcbPtr) (handle : BitVec 32)
  | exit (pcb : PcbPtr)

/-- The PCB of a new process was free, and the other calls are made by live processes. -/
def LifeEvent.enabled (s : Os) : LifeEvent → Prop
  | .fork pcb _ => ¬ s.Live pcb
  | .shmget pcb | .shmat pcb _ | .exit pcb => s.Live pcb

instance (s : Os) (e : LifeEvent) : Decidable (e.enabled s) := by
  cases e <;> unfold LifeEvent.enabled <;> infer_instance

def Os.perform (s : Os) : LifeEvent → Except Halt Os
  | .fork pcb fd => do return (← processFork s pcb fd).2
  | .shmget pcb => do return (← memoryCreateSharedPage s pcb).2
  | .shmat pcb handle => do return (← mmap s pcb handle).2
  | .exit pcb => trapExit s pcb

/-- The variables after the kernel has started. -/
def Os.boot (m : Freemap) : Os where
  freemap := m
  spages _ := ⟨0, 0⟩
  pcbs _ := ⟨0, processStatusFree, fun _ => 0, 0⟩
  frees := []

/-- The runs of a kernel on a memory of that size. -/
def lifeSystem (memorySize lastosaddress : ℕ) : System Os LifeEvent where
  Init s := ∃ m, memoryModuleInit memorySize lastosaddress .static = .ok m ∧ s = .boot m
  Step s e s' := e.enabled s ∧ s.perform e = .ok s'

/-- A `shmat` that finds an entry finds one that somebody shares, or has no room for the page. -/
def LifeEvent.StillShared (s : Os) : LifeEvent → Prop
  | .shmat pcb handle => (s.pcbs pcb).NoRoom handle ∨
      ∀ i, handle ≠ 0 → s.findEntry handle.toNat = some i → (s.spages i).bits ≠ 0
  | _ => True

instance (s : Os) (e : LifeEvent) : Decidable (e.StillShared s) := by
  cases e <;> unfold LifeEvent.StillShared <;> infer_instance

/-- The state after these calls, each of them allowed by `ok`. -/
def Os.performAll (ok : Os → LifeEvent → Bool) : Os → List LifeEvent → Option Os
  | s, [] => some s
  | s, e :: es =>
    if e.enabled s ∧ ok s e then
      match s.perform e with
      | .ok t => t.performAll ok es
      | .error _ => none
    else none

/-- The pages in use are those of the live processes, and no free page is freed. -/
structure Os.PagesOwned (s : Os) (lo hi : ℕ) : Prop where
  not_free : ∀ p, s.Live p → ∀ page ∈ (s.pcbs p).pages, page ∉ s.freemap.free
  owned : ∀ page ∈ Finset.Ico lo hi, page ∉ s.freemap.free →
    ∃ p, s.Live p ∧ page ∈ (s.pcbs p).pages
  frees : ∀ f ∈ s.frees, f.wasFree = false

theorem Os.Inv.pagesOwned (h : s.Inv lo hi) : s.PagesOwned lo hi where
  not_free p hp page hm hf := by
    have ho := Os.mem_owners.mpr ⟨hp, hm⟩
    exact Finset.ne_empty_of_mem ho ((h.books.free page (h.books.mem_Ico ho)).mp hf)
  owned page hm hf := by
    obtain ⟨p, hp⟩ := Finset.nonempty_iff_ne_empty.mpr fun he =>
      hf ((h.books.free page hm).mpr he)
    exact ⟨p, Os.mem_owners.mp hp⟩
  frees := h.books.frees

/-- At the start every page is free, and nobody is live. -/
theorem Os.Inv.boot {m : Freemap} (hfree : m.free = Finset.Ico lo hi) (sound : m.Sound lo hi)
    (hlo : 0 < lo) : (Os.boot m).Inv lo hi := by
  have hdead : ∀ p, ¬ (Os.boot m).Live p := fun p hp =>
    hp (show processStatusFree &&& statusLive = 0 by decide)
  have howners : (Os.boot m).owners = fun _ => ∅ := by
    funext r
    exact Finset.filter_eq_empty_iff.mpr fun p _ hp => hdead p hp.1
  refine ⟨?_, fun p hp => absurd hp (hdead p)⟩
  rw [howners]
  refine ⟨sound, fun r hr => iff_of_true (hfree ▸ hr) rfl, fun r hr => .inl ?_,
    fun r hr => absurd rfl hr, fun i hi => absurd rfl hi, by simp [Os.boot]⟩
  rw [Os.sharers_of_none]
  have := Finset.mem_Ico.mp hr
  refine Fin.find?_eq_none_iff.mpr fun i => decide_eq_false ?_
  change 0 ≠ r
  omega

/-- A call that returns a state has a result beside it. -/
theorem snd_inv {α : Type} {x : Except Halt (α × Os)} (h : (x >>= fun r => pure r.2) = .ok s') :
    ∃ r, x = .ok (r, s') := by
  cases x with
  | error halt => cases h
  | ok r =>
      obtain rfl := Except.ok.inj h
      exact ⟨r.1, rfl⟩

/-- Every call keeps the books, `shmat` on a page that somebody shares. -/
theorem Os.Inv.step (h : s.Inv lo hi) (hlo : 0 < lo) {e : LifeEvent} (he : e.enabled s)
    (hs : e.StillShared s) (hstep : s.perform e = .ok s') : s'.Inv lo hi := by
  cases e with
  | fork pcb fd =>
      obtain ⟨_, hrun⟩ := snd_inv hstep
      exact h.fork hlo he hrun
  | shmget pcb =>
      obtain ⟨_, hrun⟩ := snd_inv hstep
      exact h.createSharedPage hlo he hrun
  | shmat pcb handle =>
      obtain ⟨_, hrun⟩ := snd_inv hstep
      rcases hs with full | hbits
      · obtain ⟨-, rfl⟩ := Prod.mk.inj (Except.ok.inj ((mmap_noRoom full).symm.trans hrun))
        exact h
      · exact h.mmap hlo he hbits hrun
  | exit pcb =>
      obtain ⟨t, hrun, ht⟩ := h.freeResources he hlo _
      obtain rfl := Except.ok.inj (hrun.symm.trans hstep)
      exact ht

/-- As long as no process maps a page whose last sharer is gone, the pages in use are those of the
live processes, and no page is freed twice. -/
theorem pages_owned {memorySize lastosaddress : ℕ} (hsize : memorySize < 2 ^ 31)
    (hlast : 4 ≤ lastosaddress) (hsum : lastosaddress + 65532 < 2 ^ 31)
    (hr : ((lifeSystem memorySize lastosaddress).restrict fun s e => e.StillShared s).Reachable s) :
    s.PagesOwned (firstPage lastosaddress) (memorySize / memoryPageSize) := by
  have hlo : 0 < firstPage lastosaddress := Nat.div_pos (by omega) (by decide)
  obtain ⟨m₀, e₀, hfree, sound⟩ := memoryModuleInit_spec hsize hsum
  have hinv : s.Inv (firstPage lastosaddress) (memorySize / memoryPageSize) := by
    refine hr.invariant (P := fun s => s.Inv (firstPage lastosaddress)
      (memorySize / memoryPageSize)) ?_ ?_
    · rintro s ⟨m, e, rfl⟩
      obtain rfl := Except.ok.inj (e₀.symm.trans e)
      exact .boot hfree sound hlo
    · rintro s e s' - h ⟨⟨he, hstep⟩, hs⟩
      exact h.step hlo he hs hstep
  exact hinv.pagesOwned

theorem performAll_reachable {memorySize lastosaddress : ℕ} {E : Os → LifeEvent → Prop}
    {ok : Os → LifeEvent → Bool} (hok : ∀ s e, ok s e = true → E s e) {es : List LifeEvent}
    (hs : ((lifeSystem memorySize lastosaddress).restrict E).Reachable s)
    (h : s.performAll ok es = some t) :
    ((lifeSystem memorySize lastosaddress).restrict E).Reachable t := by
  induction es generalizing s with
  | nil =>
      obtain rfl := Option.some.inj h
      exact hs
  | cons e es ih =>
      unfold Os.performAll at h
      split at h
      · rename_i hcond
        split at h
        · rename_i u hu
          exact ih (hs.step ⟨⟨hcond.1, hu⟩, hok s e hcond.2⟩) h
        · cases h
      · cases h

/-- A kernel with five pages. -/
def fivePages : Option Os :=
  match memoryModuleInit (6 * memoryPageSize) 8 .static with
  | .ok m => some (.boot m)
  | .error _ => none

theorem fivePages_reachable {E : Os → LifeEvent → Prop} (h : fivePages = some s) :
    ((lifeSystem (6 * memoryPageSize) 8).restrict E).Reachable s := by
  unfold fivePages at h
  split at h
  · rename_i m hm
    obtain rfl := Option.some.inj h
    exact .init ⟨m, hm, rfl⟩
  · cases h

/-- Two processes. -/
def pcbA : PcbPtr := ⟨0, by decide⟩

def pcbB : PcbPtr := ⟨1, by decide⟩

/-- Process B maps the page that A has shared, and A exits. -/
theorem pages_owned_exit : ∃ s : Os, s.Live pcbB ∧ 3 ∈ (s.pcbs pcbB).pages ∧ ¬ s.Live pcbA ∧
    s.PagesOwned (firstPage 8) 6 := by
  have hrun : ((fivePages.bind (Os.performAll (fun s e => e.StillShared s)
      · [.fork pcbA (some 3), .shmget pcbA, .fork pcbB (some 4), .shmat pcbB 3, .exit pcbA])).any
      fun s => s.Live pcbB ∧ 3 ∈ (s.pcbs pcbB).pages ∧ ¬ s.Live pcbA) = true := by
    decide
  obtain ⟨s, hs, hprop⟩ := (Option.any_eq_true _ _).mp hrun
  obtain ⟨s₀, h₀, h⟩ := Option.bind_eq_some_iff.mp hs
  obtain ⟨hB, hpage, hA⟩ := of_decide_eq_true hprop
  exact ⟨s, hB, hpage, hA, pages_owned (by decide) (by decide) (by decide)
    (performAll_reachable (fun _ _ => of_decide_eq_true) (fivePages_reachable h₀) h)⟩

/-- When A exits first, B maps a page that is free. -/
theorem stale_page_mapped : ¬ ∀ s, (lifeSystem (6 * memoryPageSize) 8).Reachable s →
    s.PagesOwned (firstPage 8) 6 := by
  intro hall
  have hrun : ((fivePages.bind (Os.performAll (fun _ _ => true)
      · [.fork pcbA (some 3), .shmget pcbA, .fork pcbB (some 4), .exit pcbA, .shmat pcbB 3])).any
      fun s => s.Live pcbB ∧ 3 ∈ (s.pcbs pcbB).pages ∧
        isSet s.freemap.freepages 3 = true) = true := by
    decide
  obtain ⟨s, hs, hprop⟩ := (Option.any_eq_true _ _).mp hrun
  obtain ⟨s₀, h₀, h⟩ := Option.bind_eq_some_iff.mp hs
  obtain ⟨hB, hpage, hfree⟩ := of_decide_eq_true hprop
  have hreach := performAll_reachable (E := fun _ _ => True) (fun _ _ _ => trivial)
    (fivePages_reachable h₀) h
  exact (hall s hreach.unrestricted).not_free pcbB hB 3 hpage (mem_numbers.mpr hfree)

end DlxOs.Memory
