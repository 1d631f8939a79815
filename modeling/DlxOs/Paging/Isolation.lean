import DlxOs.Kernel.Endings
import DlxOs.Paging.Machine

/-!
# The pages of the processes on the queues

The pages that are not free are those of the processes that can run or sleep. Two
such processes have nothing in common but pages that both have mapped, and a copy
to one of them leaves what the other has for itself. All this holds in the runs
in which no process maps a page whose last sharer is gone: after such a call two
processes can have a page that only one of them should have.

## Main results

* `pages_follow_queues`: which pages are free, and how many.
* `processes_isolated`: what a process can do to the pages of another one.
* `fork_goes_on_iff`: which forks are refused.
-/

namespace DlxOs.Paging

open Kernel Memory Transition

variable {x : Paged} {p q : PcbPtr} {lo hi r : ℕ} {memorySize lastosaddress : ℕ}

/-- The processes that can run or sleep. -/
def Paged.processes (x : Paged) : List PcbPtr :=
  x.machine.kernel.sched.run ++ x.machine.kernel.sched.wait

/-- The pages of these processes. -/
def Paged.inUse (x : Paged) : Finset ℕ :=
  x.processes.toFinset.biUnion fun p => (x.os.pcbs p).pages.toFinset

theorem Paged.Sound.live_iff (h : x.Sound lo hi) (p : PcbPtr) :
    x.os.Live p ↔ p ∈ x.processes := by
  rw [h.live, Paged.processes, List.mem_append]
  constructor
  · exact fun hp => (h.kernel.placed p).resolve_left hp
  · exact h.kernel.table.not_free

theorem Paged.Sound.mem_inUse (h : x.Sound lo hi) : r ∈ x.inUse ↔ x.os.owners r ≠ ∅ := by
  rw [← Finset.nonempty_iff_ne_empty]
  simp only [Paged.inUse, Finset.mem_biUnion, List.mem_toFinset, Finset.Nonempty, Os.mem_owners,
    h.live_iff]

/-- A page is free if it is none of those of the processes on the queues. -/
theorem Paged.Sound.free_eq (h : x.Sound lo hi) :
    x.os.freemap.free = Finset.Ico lo hi \ x.inUse ∧ x.inUse ⊆ Finset.Ico lo hi := by
  constructor
  · ext r
    rw [Finset.mem_sdiff, h.mem_inUse, not_not]
    constructor
    · intro hr
      have hIco := h.books.books.sound.range hr
      exact ⟨hIco, (h.books.books.free r hIco).mp hr⟩
    · rintro ⟨hIco, hr⟩
      exact (h.books.books.free r hIco).mpr hr
  · intro r hr
    exact h.books.books.held r (h.mem_inUse.mp hr)

/-- A process has at most 16 pages and its system stack. -/
theorem Paged.Sound.inUse_le (h : x.Sound lo hi) : x.inUse.card ≤ x.processes.length * 17 := by
  refine (Finset.card_biUnion_le_card_mul _ _ 17 fun p hp => ?_).trans ?_
  · have hf := h.books.furnished p ((h.live_iff p).mpr (List.mem_toFinset.mp hp))
    have hmax : (x.os.pcbs p).npages ≤ 16 := hf.le_max
    refine (List.toFinset_card_le _).trans ?_
    rw [PCB.pages, List.length_append, PCB.frames, List.length_map, List.length_range']
    simp only [List.length_singleton]
    omega
  · exact Nat.mul_le_mul_right _ (List.toFinset_card_le _)

/-- With pages for two more processes, two are free. -/
theorem Paged.Sound.two_free (h : x.Sound lo hi) (room : x.processes.length * 17 + 2 ≤ hi - lo) :
    2 ≤ x.os.freemap.nfreepages := by
  obtain ⟨hfree, hsub⟩ := h.free_eq
  have hle := h.inUse_le
  rw [h.books.books.sound.count, hfree, Finset.card_sdiff_of_subset hsub, Nat.card_Ico]
  omega

/-- A PCB that is not on one of the other queues is free. -/
theorem Paged.Sound.some_free (h : x.Sound lo hi) (hlt : x.processes.length < processMaxProcs) :
    x.machine.kernel.sched.free ≠ [] := by
  intro hnil
  have hall : ∀ p, p ∈ x.processes := by
    intro p
    rw [← h.live_iff, h.live, hnil]
    exact List.not_mem_nil
  have hcard : (Finset.univ : Finset PcbPtr).card ≤ x.processes.toFinset.card :=
    Finset.card_le_card fun p _ => List.mem_toFinset.mpr (hall p)
  rw [Finset.card_univ, Fintype.card_fin] at hcard
  exact absurd (hcard.trans (List.toFinset_card_le _)) (by omega)

/-! ### Forks that return -/

/-- A fork that has its two pages returns. -/
theorem processFork_ok {s : Os} {first stack : ℕ} {m₁ m₂ : Freemap} (p : PcbPtr) (fd : Option ℤ)
    (hfirst : memoryAllocPage s.freemap = .ok (first, m₁)) (hne : first ≠ 0)
    (hstack : memoryAllocPage m₁ = .ok (stack, m₂)) (hne' : stack ≠ 0) :
    ∃ rv s', Memory.processFork s p fd = .ok (rv, s') := by
  by_cases hfd : ∃ f, fd = some f ∧ f < 0
  · obtain ⟨f, rfl, hneg⟩ := hfd
    obtain ⟨s', e⟩ := processFork_returns (p := p) hneg hfirst hne hstack hne'
    exact ⟨-1, s', e⟩
  · unfold Memory.processFork
    rw [forkPages_ok hfirst hne hstack hne', ok_bind]
    cases fd with
    | none => exact ⟨_, _, rfl⟩
    | some f =>
        have hpos : ¬ f < 0 := fun hneg => hfd ⟨f, rfl, hneg⟩
        exact ⟨_, _, if_neg hpos⟩

/-- With a PCB and two pages a fork returns. -/
theorem Paged.Sound.fork_steps (h : x.Sound lo hi) (hlo : 0 < lo)
    (free : x.machine.kernel.sched.free ≠ []) (pages : 2 ≤ x.os.freemap.nfreepages)
    (fd : Option ℤ) : ∃ r x', x.Step (.fork fd r) x' := by
  obtain ⟨pcb, rest, free⟩ := List.exists_cons_of_ne_nil free
  obtain ⟨first, stack, m₁, m₂, hfirst, hne, hstack, hne'⟩ :=
    h.books.books.sound.two_pages hlo pages
  obtain ⟨rv, os, hos⟩ := processFork_ok pcb fd hfirst hne hstack hne'
  obtain ⟨t, refused, -⟩ | ⟨-, r, K, e, -⟩ :=
    processFork_spec h.kernel.table ⟨first, stack, fd⟩
  · have some_free : x.machine.kernel.list .freepcbs ≠ [] :=
      free.trans_ne (List.cons_ne_nil pcb rest)
    rw [ForkAnswers.refusal, if_neg some_free, if_neg hne, if_neg hne'] at refused
    cases refused
  · exact ⟨r, _, .fork free hfirst hstack (.fork e) hos⟩

/-- A fork of a system process makes the first free PCB the last one of the run queue. -/
theorem Paged.Sound.system_forks (h : x.Sound lo hi) (hlo : 0 < lo) {pcb : PcbPtr}
    {rest : List PcbPtr} (free : x.machine.kernel.sched.free = pcb :: rest)
    (room : x.processes.length * 17 + 2 ≤ hi - lo) : ∃ x', x.Step (.fork none pcb.val) x' ∧
      x'.machine.kernel.sched = { x.machine.kernel.sched with
        free := rest, run := x.machine.kernel.sched.run ++ [pcb] } := by
  obtain ⟨r, x', hs⟩ := h.fork_steps hlo (by simp [free]) (h.two_free room) none
  cases hs with
  | @fork pcb' rest' first stack m₁ m₂ fd r rv m os free' hfirst hstack hs hos =>
      obtain ⟨rfl, rfl⟩ := List.cons.inj (free.symm.trans free')
      cases id hs with
      | @fork _ _ K run =>
          obtain rfl : r = pcb.val := processFork_result h.kernel.table free run
          obtain ⟨p, rest'', hfree'', -, ⟨-, hs', -⟩ | ⟨hr, -⟩⟩ := h.kernel.fork_moves run
          · obtain ⟨rfl, rfl⟩ := List.cons.inj (free.symm.trans hfree'')
            exact ⟨_, .fork free hfirst hstack hs hos, hs'⟩
          · omega

/-- The kernel on a memory of 64 pages. -/
abbrev smallSystem : System Paged PagedEvent :=
  (pagedSystem (64 * memoryPageSize) 8).restrict StillShared

/-- After two forks two processes are on the run queue. -/
theorem exists_running : ∃ x p q, smallSystem.Reachable x ∧ p ≠ q ∧
    x.machine.kernel.sched.run = [p, q] ∧ x.machine.kernel.sched.wait = [] := by
  obtain ⟨m, hm⟩ := exists_init
  obtain ⟨f, ef, -⟩ := @memoryModuleInit_spec (64 * memoryPageSize) 8 (by decide) (by decide)
  have reach : smallSystem.Reachable ⟨m, .boot f⟩ := .init ⟨hm, f, ef, rfl⟩
  have sound : ∀ {x : Paged}, smallSystem.Reachable x → x.Sound 1 64 :=
    fun hr => reachable_sound (by decide) (by decide) (by decide) hr
  have hrun : m.kernel.sched.run = [] := hm.blank.1.empty .runQueue (by simp)
  have hwait : m.kernel.sched.wait = [] := hm.blank.1.empty .waitQueue (by simp)
  obtain ⟨p, rest, hfree⟩ := List.exists_cons_of_ne_nil
    ((sound reach).some_free (by simp [Paged.processes, hrun, hwait]; decide))
  obtain ⟨x₁, hs₁, e₁⟩ := (sound reach).system_forks (by decide) hfree
    (by simp [Paged.processes, hrun, hwait])
  have reach₁ : smallSystem.Reachable x₁ := reach.step ⟨hs₁, trivial⟩
  have hrun₁ : x₁.machine.kernel.sched.run = [p] := by rw [e₁]; simp [hrun]
  have hwait₁ : x₁.machine.kernel.sched.wait = [] := by rw [e₁]; exact hwait
  have two₁ : x₁.processes = [p] := by simp [Paged.processes, hrun₁, hwait₁]
  obtain ⟨q, rest₁, hfree₁⟩ := List.exists_cons_of_ne_nil
    ((sound reach₁).some_free (by simp [two₁]; decide))
  obtain ⟨x₂, hs₂, e₂⟩ := (sound reach₁).system_forks (by decide) hfree₁ (by simp [two₁])
  refine ⟨x₂, p, q, reach₁.step ⟨hs₂, trivial⟩, ?_, ?_⟩
  · rintro rfl
    have hlive := ((sound reach₁).live_iff p).mpr (by simp [two₁])
    exact ((sound reach₁).live p).mp hlive (by simp [hfree₁])
  · simp [e₂, hwait₁, hrun₁]

theorem exists_two : ∃ x p q, smallSystem.Reachable x ∧ p ≠ q ∧ x.processes = [p, q] := by
  obtain ⟨x, p, q, hr, hne, hrun, hwait⟩ := exists_running
  exact ⟨x, p, q, hr, hne, by rw [Paged.processes, hrun, hwait, List.append_nil]⟩

/-! ### The free pages -/

/-- As long as no process maps a page whose last sharer is gone, the free pages are those that no
process on a queue has, and `nfreepages` is their number. -/
theorem pages_follow_queues (hsize : memorySize < 2 ^ 31) (hlast : 4 ≤ lastosaddress)
    (hsum : lastosaddress + 65532 < 2 ^ 31)
    (hr : ((pagedSystem memorySize lastosaddress).restrict StillShared).Reachable x) :
    x.os.freemap.free =
      Finset.Ico (firstPage lastosaddress) (memorySize / memoryPageSize) \ x.inUse ∧
    x.os.freemap.nfreepages + x.inUse.card =
      (memorySize / memoryPageSize - firstPage lastosaddress : ℕ) := by
  have h := reachable_sound hsize hlast hsum hr
  obtain ⟨hfree, hsub⟩ := h.free_eq
  refine ⟨hfree, ?_⟩
  rw [h.books.books.sound.count, hfree, Finset.card_sdiff_of_subset hsub, Nat.card_Ico]
  have hle := Finset.card_le_card hsub
  rw [Nat.card_Ico] at hle
  omega

theorem pages_follow_queues_two : ∃ (x : Paged) (p q : PcbPtr), p ≠ q ∧ x.processes = [p, q] ∧
    x.os.freemap.free = Finset.Ico (firstPage 8) (64 * memoryPageSize / memoryPageSize) \ x.inUse ∧
    x.os.freemap.nfreepages + x.inUse.card =
      (64 * memoryPageSize / memoryPageSize - firstPage 8 : ℕ) := by
  obtain ⟨x, p, q, hr, hne, two⟩ := exists_two
  exact ⟨x, p, q, hne, two, pages_follow_queues (by decide) (by decide) (by decide) hr⟩

/-- As long as no process maps a page whose last sharer is gone, a fork is refused exactly for want
of a PCB or of two pages. -/
theorem fork_goes_on_iff (hsize : memorySize < 2 ^ 31) (hlast : 4 ≤ lastosaddress)
    (hsum : lastosaddress + 65532 < 2 ^ 31)
    (hr : ((pagedSystem memorySize lastosaddress).restrict StillShared).Reachable x)
    (fd : Option ℤ) : (∃ r x', x.Step (.fork fd r) x') ↔
      x.machine.kernel.sched.free ≠ [] ∧ 2 ≤ x.os.freemap.nfreepages := by
  have h := reachable_sound hsize hlast hsum hr
  have hlo : 0 < firstPage lastosaddress := Nat.div_pos (by omega) (by decide)
  refine ⟨?_, fun ⟨free, pages⟩ => h.fork_steps hlo free pages fd⟩
  rintro ⟨r, x', hs⟩
  cases hs with
  | @fork pcb rest first stack m₁ m₂ fd r rv m os free hfirst hstack hs hos =>
      refine ⟨by simp [free], ?_⟩
      exact (h.books.books.sound.twoPages_iff hlo).mp (processFork_allocates hos)

theorem fork_goes_on_iff_two : ∃ (x : Paged) (p q : PcbPtr), p ≠ q ∧
    x.processes = [p, q] ∧ ∀ fd,
    (∃ r x', x.Step (.fork fd r) x') ↔
      x.machine.kernel.sched.free ≠ [] ∧ 2 ≤ x.os.freemap.nfreepages := by
  obtain ⟨x, p, q, hr, hne, two⟩ := exists_two
  exact ⟨x, p, q, hne, two, fork_goes_on_iff (by decide) (by decide) (by decide) hr⟩

/-! ### Isolation -/

/-- What process `p` has in common with `q`, and what a copy to `p` does to the pages of `q`. -/
structure Paged.Isolated (x : Paged) (p q : PcbPtr) : Prop where
  first : (x.os.pcbs p).frame 0 ∉ (x.os.pcbs q).pages
  stack : (x.os.pcbs p).stackPage ∉ (x.os.pcbs q).pages
  common : ∀ r ∈ (x.os.pcbs p).pages, r ∈ (x.os.pcbs q).pages →
    p ∈ x.os.sharers r ∧ q ∈ x.os.sharers r
  copies : ∀ (src dst : BitVec 32) (n : ℤ) (mem : Bytes), (x.os.pcbs p).Harmless dst.toNat n →
    ∃ c, memoryCopySystemToUser (x.os.pcbs p) src dst n mem = .ok c ∧
      ∀ a : BitVec 32, a.toNat / memoryPageSize ∈ (x.os.pcbs q).pages →
        p ∉ x.os.sharers (a.toNat / memoryPageSize) → c.mem a = mem a

theorem Paged.Sound.isolated (h : x.Sound lo hi) (hp : p ∈ x.processes) (hq : q ∈ x.processes)
    (hne : p ≠ q) : x.Isolated p q := by
  have hp := (h.live_iff p).mpr hp
  have hq := (h.live_iff q).mpr hq
  have common : ∀ r ∈ (x.os.pcbs p).pages, r ∈ (x.os.pcbs q).pages →
      p ∈ x.os.sharers r ∧ q ∈ x.os.sharers r :=
    fun r hrp hrq => (h.books.isolated h.apart hp hq hne hrp hrq).1
  refine ⟨fun hm => ?_, fun hm => ?_, common, fun src dst n mem hc => ?_⟩
  · have hs := (common _ (h.books.first_mem hp) hm).1
    rw [h.apart p hp] at hs
    exact absurd hs (Finset.notMem_empty p)
  · have hs := (common _ (by simp [PCB.pages]) hm).1
    rw [(h.books.furnished p hp).stack] at hs
    exact absurd hs (Finset.notMem_empty p)
  · obtain ⟨c, e, hframe⟩ := h.books.copy_frame hp hc
    exact ⟨c, e, fun a ha hs => hframe a fun hm => hs (common _ hm ha).1⟩

/-- As long as no process maps a page whose last sharer is gone, two processes on the queues have
nothing in common but pages that both have mapped, and a copy to one of them leaves the other pages
of the other one. -/
theorem processes_isolated (hsize : memorySize < 2 ^ 31) (hlast : 4 ≤ lastosaddress)
    (hsum : lastosaddress + 65532 < 2 ^ 31)
    (hr : ((pagedSystem memorySize lastosaddress).restrict StillShared).Reachable x)
    (hp : p ∈ x.processes) (hq : q ∈ x.processes) (hne : p ≠ q) : x.Isolated p q :=
  (reachable_sound hsize hlast hsum hr).isolated hp hq hne

theorem processes_isolated_two : ∃ (x : Paged) (p q : PcbPtr), x.processes = [p, q] ∧
    x.Isolated p q ∧ x.Isolated q p := by
  obtain ⟨x, p, q, hr, hne, two⟩ := exists_two
  have hp : p ∈ x.processes := by simp [two]
  have hq : q ∈ x.processes := by simp [two]
  exact ⟨x, p, q, two, processes_isolated (by decide) (by decide) (by decide) hr hp hq hne,
    processes_isolated (by decide) (by decide) (by decide) hr hq hp hne.symm⟩

end DlxOs.Paging
