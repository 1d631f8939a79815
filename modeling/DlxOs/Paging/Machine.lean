import DlxOs.Kernel.Ownership
import DlxOs.Memory.Cursor
import DlxOs.Memory.Privacy

/-!
# The kernel with the pages of its processes

The scheduler and the page allocator share the PCBs: a fork takes the PCB at the
head of `freepcbs` and two pages, an exit gives both back, and a process that is
running makes the calls for shared pages. A run interleaves these with all other
steps of the kernel.

## Main results

* `reachable_kernel`: the machine of a reachable state is reachable in the kernel.
* `reachable_sound`: the books of the pages and the queues of the PCBs agree.

## Implementation notes

The flags of a PCB are one field of the source. They are kept by the kernel, and
copied to the side of the pages after each step.
-/

namespace DlxOs.Paging

open Kernel Memory Transition

/-- The kernel, and the variables that the pages of processes depend on. -/
structure Paged where
  machine : Kernel.Machine
  os : Memory.Os

inductive PagedEvent where
  /-- A step of the kernel in which no PCB is taken or given back. -/
  | kernel (e : KEvent)
  /-- A fork with this result of `ProcessGetCodeInfo`, or of a system process. -/
  | fork (fd : Option ℤ) (r : ℤ)
  | exit (p : PcbPtr)
  | shmget (p : PcbPtr) (page : ℕ)
  | shmat (p : PcbPtr) (handle rv : BitVec 32)

/-- No PCB is taken or given back. -/
def pageless : KEvent → Bool
  | .fork _ _ => false
  | .exit _ => false
  | _ => true

/-- The PCBs with the flags that the kernel has for them. -/
def withFlags (os : Os) (K : KState) : Os :=
  { os with pcbs := fun p => { os.pcbs p with flags := (K.pcbs p).flags } }

inductive Paged.Step (x : Paged) : PagedEvent → Paged → Prop
  | kernel {e m} (plain : pageless e = true) (h : x.machine.Step e m) :
      Step x (.kernel e) ⟨m, withFlags x.os m.kernel⟩
  | fork {pcb rest first stack m₁ m₂ fd r rv m os}
      (free : x.machine.kernel.sched.free = pcb :: rest)
      (hfirst : memoryAllocPage x.os.freemap = .ok (first, m₁))
      (hstack : memoryAllocPage m₁ = .ok (stack, m₂))
      (h : x.machine.Step (.fork ⟨first, stack, fd⟩ r) m)
      (hos : Memory.processFork x.os pcb fd = .ok (rv, os)) :
      Step x (.fork fd r) ⟨m, withFlags os m.kernel⟩
  | exit {p m os} (h : x.machine.Step (.exit p) m) (hos : Memory.trapExit x.os p = .ok os) :
      Step x (.exit p) ⟨m, withFlags os m.kernel⟩
  | shmget {p page os} (active : x.machine.Active p)
      (h : memoryCreateSharedPage x.os p = .ok (page, os)) :
      Step x (.shmget p page) ⟨x.machine, os⟩
  | shmat {p handle rv os} (active : x.machine.Active p)
      (h : mmap x.os p handle = .ok (rv, os)) : Step x (.shmat p handle rv) ⟨x.machine, os⟩

/-- The runs of the kernel on a memory of that size. -/
def pagedSystem (memorySize lastosaddress : ℕ) : System Paged PagedEvent where
  Init x := x.machine.Init ∧
    ∃ m, memoryModuleInit memorySize lastosaddress .static = .ok m ∧ x.os = .boot m
  Step := Paged.Step

/-- A `shmat` that finds an entry finds one that somebody shares. -/
def StillShared (x : Paged) : PagedEvent → Prop
  | .shmat p handle _ => (LifeEvent.shmat p handle).StillShared x.os
  | _ => True

/-- The free pages and the PCBs in use agree. -/
structure Paged.Sound (x : Paged) (lo hi : ℕ) : Prop where
  kernel : x.machine.Inv
  books : x.os.Inv lo hi
  apart : x.os.Private
  live : ∀ p, x.os.Live p ↔ p ∉ x.machine.kernel.sched.free

end DlxOs.Paging

namespace DlxOs.Kernel

open Queue Monitors

variable {m m' : Machine} {K K' : KState} {p : PcbPtr} {e : KEvent} {r : ℤ}

/-- The flags of a PCB tell whether it is free. -/
theorem Scheduled.live_iff (h : Scheduled K) (p : PcbPtr) :
    (K.pcbs p).flags &&& Memory.statusLive ≠ 0 ↔ p ∉ K.sched.free := by
  have hflags : (K.pcbs p).flags &&& Memory.statusLive = K.statusOf p &&& Memory.statusLive := by
    rw [KState.statusOf, BitVec.and_assoc]
    rfl
  rw [hflags]
  rcases h.placed p with hp | hp | hp
  · rw [h.table.status .freepcbs _ rfl p hp]
    exact iff_of_false (by decide) (not_not.mpr hp)
  · rw [h.table.status .runQueue _ rfl p hp]
    exact iff_of_true (by decide) (h.table.not_free (.inl hp))
  · rw [h.table.status .waitQueue _ rfl p hp]
    exact iff_of_true (by decide) (h.table.not_free (.inr hp))

/-- Only forks and exits take or give back a PCB. -/
theorem Machine.Inv.free_kept (h : m.Inv) (hs : m.Step e m') (plain : Paging.pageless e = true) :
    m'.kernel.sched.free = m.kernel.sched.free := by
  cases hs with
  | tick hs =>
      obtain ⟨p, rest, -, -, hs', -⟩ := h.tick_moves hs
      exact (congrArg Sched.free hs' :)
  | fork hs => cases plain
  | exit active hs => cases plain
  | sleep active hs =>
      obtain ⟨q, rest, -, -, hs', -⟩ := h.sleep_moves active.1 hs
      exact (congrArg Sched.free hs' :)
  | wakeup running outside waiting hs =>
      obtain ⟨-, hs', -⟩ := h.wakeup_moves ((h.waiting_iff _).mp waiting) hs
      exact (congrArg Sched.free hs' :)
  | @call p c level r K active legal hs =>
      obtain ⟨served, hkernel⟩ := h.call_served active legal hs
      have hlevel := congrArg Sched.free (KState.setIntrs_sched m.kernel level)
      rw [hkernel]
      cases served with
      | call hd hu hp => exact hp.free_eq.trans hlevel
      | refused hc => exact hlevel
      | newSem hu hc => exact (congrArg Sched.free (KState.sched_congr hc.list)).trans hlevel
      | newLock hu hc => exact (congrArg Sched.free (KState.sched_congr hc.list)).trans hlevel
      | newCond hu hk hc => exact (congrArg Sched.free (KState.sched_congr hc.list)).trans hlevel
  | resume current pending hs =>
      obtain ⟨rfl, rfl⟩ := Prod.mk.inj (Except.ok.inj (show
        Except.ok (syncSuccess, m.kernel.setIntrs _) = _ from hs))
      exact congrArg Sched.free (KState.setIntrs_sched ..)

/-- The result of a fork depends on its file only. -/
theorem processFork_result (h : Table K) {rest : List PcbPtr}
    (hfree : K.list .freepcbs = p :: rest) {a : ForkAnswers}
    (hs : (processFork a).run K = .ok (r, K')) :
    r = if Memory.noFile a.fd then -1 else (p.val : ℤ) := by
  obtain ⟨h₁, b₁, e₁, hT₁, -, hgone, -⟩ := processFork_takes h hfree a
  by_cases hu : a.userPage = 0
  · rw [e₁, forkLoad, if_pos hu] at hs
    cases hs
  by_cases hst : a.stackPage = 0
  · rw [e₁, forkLoad, if_neg hu, if_pos hst] at hs
    cases hs
  cases hfd : Memory.noFile a.fd with
  | true =>
      obtain ⟨h₂, b₂, e₂, -⟩ := processFreeResources_spec hT₁ hgone
      cases hfile : a.fd with
      | none =>
          rw [hfile] at hfd
          cases hfd
      | some fd =>
          rw [hfile] at hfd
          rw [e₁, forkLoad, if_neg hu, if_neg hst, hfile] at hs
          simp only [if_pos (of_decide_eq_true hfd)] at hs
          change StateT.run (processFreeResources p >>= _) _ = _ at hs
          rw [run_bind_ok e₂] at hs
          exact ((Prod.mk.inj (Except.ok.inj hs)).1).symm
  | false =>
      obtain ⟨K'', e, -⟩ := processFork_runs h hfree hu hst fun fd he => by
        rw [he] at hfd
        exact not_lt.mp (of_decide_eq_false hfd)
      exact (Prod.mk.inj (Except.ok.inj (hs.symm.trans e))).1

end DlxOs.Kernel

namespace DlxOs.Paging

open Kernel Memory Transition

variable {x x' : Paged} {os : Os} {m : Kernel.Machine} {K : KState} {p : PcbPtr} {lo hi : ℕ}
  {e : PagedEvent} {memorySize lastosaddress : ℕ}

/-! ### The flags of the kernel on the side of the pages -/

/-- The books depend on the flags through those who are live only. -/
theorem withFlags_inv (h : os.Inv lo hi) (hl : ∀ p, (withFlags os K).Live p ↔ os.Live p) :
    (withFlags os K).Inv lo hi := by
  have howners : (withFlags os K).owners = os.owners := by
    funext r
    ext p
    rw [Os.mem_owners, Os.mem_owners, hl]
    rfl
  refine ⟨howners ▸ h.books.congr rfl rfl rfl, fun p hp => ?_⟩
  have hf := h.furnished p ((hl p).mp hp)
  exact ⟨hf.one_le, hf.le_max, hf.setup, hf.nodup, hf.shared, hf.stack⟩

/-- The machine and the pages agree if they do on who is live. -/
theorem Paged.Sound.carry (hm : m.Inv) (ho : os.Inv lo hi) (hp : os.Private)
    (hl : ∀ p, os.Live p ↔ p ∉ m.kernel.sched.free) :
    Paged.Sound ⟨m, withFlags os m.kernel⟩ lo hi := by
  have hlive : ∀ p, (withFlags os m.kernel).Live p ↔ p ∉ m.kernel.sched.free :=
    fun p => hm.toScheduled.live_iff p
  exact ⟨hm, withFlags_inv ho fun p => (hlive p).trans (hl p).symm,
    fun p h => hp p ((hl p).mpr ((hlive p).mp h)), hlive⟩

/-- A PCB in use is live on the side of the pages. -/
theorem Paged.Sound.active (h : x.Sound lo hi) (ha : x.machine.Active p) : x.os.Live p := by
  obtain ⟨rest, hrun⟩ := h.kernel.run_eq ha.1
  exact (h.live p).mpr (h.kernel.table.not_free (.inl (by simp [hrun])))

/-! ### The steps -/

/-- A fork takes a PCB on one side exactly if it makes it live on the other. -/
theorem Paged.Sound.fork_live (h : x.Sound lo hi) {pcb : PcbPtr} {rest : List PcbPtr}
    (free : x.machine.kernel.sched.free = pcb :: rest) {a : ForkAnswers} {r rv : ℤ}
    (hs : (Kernel.processFork a).run x.machine.kernel = .ok (r, K))
    (hf : Forks x.os os pcb a.fd rv) : ∀ q, os.Live q ↔ q ∉ K.sched.free := by
  have hnodup : (pcb :: rest).Nodup := free ▸ h.kernel.table.sparse.nodup .freepcbs
  have hres := processFork_result h.kernel.table free hs
  obtain ⟨p, rest', hfree, -, hmove⟩ := h.kernel.fork_moves hs
  obtain ⟨rfl, rfl⟩ := List.cons.inj (free.symm.trans hfree)
  intro q
  rcases eq_or_ne q pcb with rfl | hq
  · rw [hf.live]
    rcases hmove with ⟨hr, hs', -⟩ | ⟨hr, hs', -⟩
    · refine iff_of_true ?_ ?_
      · rw [hr] at hres
        cases hfd : noFile a.fd with
        | false => rfl
        | true =>
            rw [hfd, if_pos rfl] at hres
            omega
      · rw [hs']
        exact (List.nodup_cons.mp hnodup).1
    · refine iff_of_false ?_ (by simp [hs'])
      intro hfd
      rw [hr, hfd] at hres
      simp only [Bool.false_eq_true, if_false] at hres
      omega
  · have hold : os.Live q ↔ q ∉ rest := by
      unfold Os.Live
      rw [hf.pcbs q hq]
      exact (h.live q).trans (by simp [free, hq])
    rw [hold]
    rcases hmove with ⟨-, hs', -⟩ | ⟨-, hs', -⟩
    · rw [hs']
    · simp [hs', hq]

/-- Every step keeps the two sides in agreement. -/
theorem Paged.Sound.step (h : x.Sound lo hi) (hlo : 0 < lo) (hs : x.Step e x')
    (still : StillShared x e) : x'.Sound lo hi := by
  cases hs with
  | @kernel e m plain hs =>
      refine .carry (h.kernel.step hs).1 h.books h.apart fun p => ?_
      rw [h.kernel.free_kept hs plain]
      exact h.live p
  | @fork pcb rest first stack m₁ m₂ fd r rv m os free hfirst hstack hs hos =>
      have forks := processFork_forks hos
      have dead : ¬ x.os.Live pcb := fun hl => (h.live pcb).mp hl (by simp [free])
      have enabled : (LifeEvent.fork pcb fd).enabled x.os := dead
      have perform : x.os.perform (.fork pcb fd) = .ok os := by
        rw [Os.perform, hos]
        rfl
      refine .carry (h.kernel.step hs).1 (h.books.step hlo enabled trivial perform)
        (h.books.step_private hlo h.apart enabled trivial perform) ?_
      cases hs with
      | fork hs => exact h.fork_live free hs forks
  | @exit p m os hs hos =>
      have hinv := (h.kernel.step hs).1
      cases hs with
      | @exit p K active hs =>
          have enabled : (LifeEvent.exit p).enabled x.os := h.active active
          refine .carry hinv (h.books.step hlo enabled trivial hos)
            (h.books.step_private hlo h.apart enabled trivial hos) fun q => ?_
          obtain ⟨hkeeps, hdead⟩ := processFreeResources_keeps hos
          have hall : Keeps x.os os p := (Os.setFlags_keeps _).trans hkeeps
          obtain ⟨q', rest, -, -, hs', -⟩ := h.kernel.exit_moves active.1 hs
          have hfree : (x.machine.setKernel K).kernel.sched.free =
              x.machine.kernel.sched.free ++ [p] := congrArg Sched.free hs'
          rw [hfree]
          rcases eq_or_ne q p with rfl | hq
          · exact iff_of_false hdead (by simp)
          · unfold Os.Live
            rw [hall.pcbs q hq]
            exact (h.live q).trans (by simp [hq])
  | @shmget p page os active hs =>
      have enabled : (LifeEvent.shmget p).enabled x.os := h.active active
      have perform : x.os.perform (.shmget p) = .ok os := by
        rw [Os.perform, hs]
        rfl
      obtain ⟨hpcbs, -⟩ := memoryCreateSharedPage_first (h.books.furnished p enabled).one_le hs
      refine ⟨h.kernel, h.books.step hlo enabled trivial perform,
        h.books.step_private hlo h.apart enabled trivial perform, fun q => ?_⟩
      unfold Os.Live
      rw [(hpcbs q).1]
      exact h.live q
  | @shmat p handle rv os active hs =>
      have enabled : (LifeEvent.shmat p handle).enabled x.os := h.active active
      have perform : x.os.perform (.shmat p handle) = .ok os := by
        rw [Os.perform, hs]
        rfl
      obtain ⟨hpcbs, -⟩ := mmap_first (h.books.furnished p enabled).one_le still hs
      refine ⟨h.kernel, h.books.step hlo enabled still perform,
        h.books.step_private hlo h.apart enabled still perform, fun q => ?_⟩
      unfold Os.Live
      rw [(hpcbs q).1]
      exact h.live q

/-- Before the first fork every PCB and every page is free. -/
theorem Paged.Sound.init (hm : x.machine.Init) {f : Freemap} (hfree : f.free = Finset.Ico lo hi)
    (sound : f.Sound lo hi) (hlo : 0 < lo) (hos : x.os = .boot f) : x.Sound lo hi := by
  have dead : ∀ p, ¬ x.os.Live p := by
    intro p hp
    rw [hos] at hp
    exact hp (show processStatusFree &&& statusLive = 0 by decide)
  refine ⟨hm.inv, hos ▸ .boot hfree sound hlo, fun p hp => absurd hp (dead p), fun p => ?_⟩
  exact iff_of_false (dead p) (not_not.mpr (hm.blank.1.free p))

/-- In every reachable state the two sides agree, as long as no process maps a page whose last
sharer is gone. -/
theorem reachable_sound (hsize : memorySize < 2 ^ 31) (hlast : 4 ≤ lastosaddress)
    (hsum : lastosaddress + 65532 < 2 ^ 31)
    (hr : ((pagedSystem memorySize lastosaddress).restrict StillShared).Reachable x) :
    x.Sound (firstPage lastosaddress) (memorySize / memoryPageSize) := by
  have hlo : 0 < firstPage lastosaddress := Nat.div_pos (by omega) (by decide)
  obtain ⟨f, ef, hfree, sound⟩ := memoryModuleInit_spec hsize hsum
  refine hr.invariant (P := fun x => x.Sound (firstPage lastosaddress)
    (memorySize / memoryPageSize)) ?_ ?_
  · rintro x ⟨hm, f', e, hos⟩
    obtain rfl := Except.ok.inj (ef.symm.trans e)
    exact .init hm hfree sound hlo hos
  · rintro x e x' - h ⟨hs, still⟩
    exact h.step hlo hs still

/-- The calls for pages are nothing to the kernel, and the other steps are its own. -/
theorem reachable_kernel (hr : (pagedSystem memorySize lastosaddress).Reachable x) :
    kernelSystem.Reachable x.machine := by
  induction hr with
  | init h => exact .init h.1
  | step tail hs ih =>
      cases hs with
      | kernel plain hs => exact ih.step hs
      | fork free hfirst hstack hs hos => exact ih.step hs
      | exit hs hos => exact ih.step hs
      | shmget active hs => exact ih
      | shmat active hs => exact ih

/-- The search for a free page stays inside the bit map, whatever was freed. -/
theorem reachable_inside (hsize : memorySize < 2 ^ 31) (hsum : lastosaddress + 65532 < 2 ^ 31)
    (hr : (pagedSystem memorySize lastosaddress).Reachable x) : x.os.freemap.Inside := by
  induction hr with
  | init h =>
      obtain ⟨f, ef, -, sound⟩ := memoryModuleInit_spec hsize hsum
      obtain ⟨m, e, hos⟩ := h.2
      obtain rfl := Except.ok.inj (ef.symm.trans e)
      rw [hos]
      exact sound.inside
  | step tail hs ih =>
      cases hs with
      | kernel plain hs => exact ih
      | fork free hfirst hstack hs hos =>
          have hinside := processFork_inside ih hos
          exact hinside
      | exit hs hos =>
          have hinside := perform_inside (e := .exit _) ih hos
          exact hinside
      | shmget active h => exact createShared_inside ih h
      | shmat active h => exact mmap_inside ih h

end DlxOs.Paging
