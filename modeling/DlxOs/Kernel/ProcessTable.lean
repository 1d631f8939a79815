import DlxOs.Kernel.Progress

/-!
# The process table

Whenever the kernel returns to a process, each PCB is on one of the queues of
free, runnable and sleeping processes, by its own link and with the status of
this queue, and the running process is the first runnable one. This holds for
the functions of `process.c` called in any order, and for the whole kernel.
-/

namespace DlxOs.Kernel

open Queue Monitors Transition

variable {m m' : Machine} {K K' : KState} {p : PcbPtr} {e : KEvent}

/-- PCB `p` is on queue `q` through link `l`. -/
structure KState.OnQueue (K : KState) (p : PcbPtr) (q : KQueue) (l : LinkPtr) : Prop where
  mem : l ∈ K.heap.items (.named q)
  tagged : K.heap.queue l = some (.named q)
  object : K.heap.object l = some p

/-- The PCB is on one queue of the table, by the link it points to, and its status names it. -/
structure KState.Placed (K : KState) (p : PcbPtr) (q : KQueue) : Prop where
  own : ∃ l, K.OnQueue p q l ∧ (K.pcbs p).l = some l ∧
    ∀ q' l', q'.isTable = true → K.OnQueue p q' l' → q' = q ∧ l' = l
  status : q.status = some ((K.pcbs p).flags &&& processStatusMask)

/-- The process table as it is whenever the kernel returns to a process. -/
structure KState.InOrder (K : KState) : Prop where
  placed : ∀ p, ∃ q, (q = .freepcbs ∨ q = .runQueue ∨ q = .waitQueue) ∧ K.Placed p q
  zombies : aQueueEmpty K.heap (.named .zombieQueue) = true ∧
    K.heap.items (.named .zombieQueue) = []
  current : ∃ p l, K.currentPCB = some p ∧ aQueueFirst K.heap (.named .runQueue) = some l ∧
    aQueueObject K.heap l = some p

theorem LinkedBy.items_eq {S : Pool KQueue PcbPtr} (hS : LinkedBy K S) {r : KQueue}
    (hr : K.ready r = true) : K.heap.items (.named r) = S.items (.named r) :=
  (hS.represents.shape _ ((hS.known r).mpr hr)).items_eq

theorem Table.placed (h : Table K) {r : KQueue} (hr : r.isTable = true) (hp : p ∈ K.list r)
    {st : BitVec 32} (hst : r.status = some st) : K.Placed p r := by
  obtain ⟨S, hS⟩ := h.linked
  have hready := ready_of_isTable (K := K) hr
  have hobj : S.object = K.heap.object := hS.represents.object
  obtain ⟨l, hl, ho⟩ := (hS.mem_list hready).mp hp
  refine ⟨⟨l, ⟨?_, ?_, hobj ▸ ho⟩, hS.own r hr l hl p ho, fun r' l' hr' hon => ?_⟩, ?_⟩
  · rw [hS.items_eq hready]
    exact hl
  · exact (hS.represents.shape _ ((hS.known r).mpr hready)).tagged l hl
  · have hready' := ready_of_isTable (K := K) hr'
    have hl' : l' ∈ S.items (.named r') := hS.items_eq hready' ▸ hon.mem
    have ho' : S.object l' = some p := hobj ▸ hon.object
    have hp' : p ∈ K.list r' := (hS.mem_list hready').mpr ⟨l', hl', ho'⟩
    exact ⟨h.sparse.apart r' r p (hr'.trans hr.symm) hp' hp,
      hS.link_unique h.sparse hready' hready (hr'.trans hr.symm) hl' hl (ho'.trans ho.symm)⟩
  · rw [hst, ← h.status r st hst p hp]
    rfl

namespace Scheduled

/-- Once there is a running process, the table is in order. -/
theorem inOrder (h : Scheduled K) (running : K.currentPCB ≠ none) : K.InOrder := by
  obtain ⟨S, hS⟩ := h.table.linked
  refine ⟨fun p => ?_, ?_, ?_⟩
  · rcases h.placed p with hp | hp | hp
    · exact ⟨.freepcbs, by simp, h.table.placed rfl hp rfl⟩
    · exact ⟨.runQueue, by simp, h.table.placed rfl hp rfl⟩
    · exact ⟨.waitQueue, by simp, h.table.placed rfl hp rfl⟩
  · have hz : S.items (.named .zombieQueue) = [] := by
      have hm := hS.map_object (q := .zombieQueue) rfl
      rw [show K.list .zombieQueue = [] from h.zombies] at hm
      simpa using hm
    exact ⟨(hS.represents.shape _ ((hS.known _).mpr rfl)).isEmpty_iff.mpr hz,
      (hS.items_eq rfl).trans hz⟩
  · obtain ⟨p, hp⟩ := Option.ne_none_iff_exists'.mp running
    obtain ⟨rest, hrun⟩ := h.run_eq hp
    obtain ⟨l, ys, hL, hobj, -, -⟩ := hS.firstPcb (q := .runQueue) hrun
    refine ⟨p, l, hp, ?_, ?_⟩
    · rw [aQueueFirst, (hS.represents.shape _ ((hS.known .runQueue).mpr rfl)).first, hL]
      rfl
    · rw [aQueueObject, ← hS.represents.object]
      exact hobj

end Scheduled

/-- The event is a fork that returns a pid. -/
def KEvent.forks : KEvent → Bool
  | .fork _ r => decide (0 ≤ r)
  | _ => false

/-! ### The functions of `process.c` in any order -/

/-- The functions of `process.c`, with a running process for those that work on it. -/
inductive KState.Step (K : KState) : KEvent → KState → Prop
  | tick {K' : KState} (h : (processSchedule false).run K = .ok ((), K')) : Step K .tick K'
  | fork {a : ForkAnswers} {r : Int} {K' : KState} (h : (processFork a).run K = .ok (r, K')) :
      Step K (.fork a r) K'
  | exit {p : PcbPtr} {K' : KState} (current : K.currentPCB = some p)
      (h : trapExit.run K = .ok ((), K')) : Step K (.exit p) K'
  | sleep {p : PcbPtr} {K' : KState} (current : K.currentPCB = some p)
      (h : processSleep.run K = .ok ((), K')) : Step K (.sleep p) K'
  | wakeup {p : PcbPtr} {K' : KState} (waiting : K.statusOf p = processStatusWaiting)
      (h : (processWakeup p).run K = .ok ((), K')) : Step K (.wakeup p) K'

/-- The runs of the process table. -/
def processSystem : System KState KEvent where
  Init K := ∃ K₀, Static K₀ ∧ boot.run K₀ = .ok ((), K)
  Step := KState.Step

/-- Nobody sleeps before there is a running process. -/
structure KState.Ordered (K : KState) : Prop extends Scheduled K where
  wait_nil : K.currentPCB = none → K.sched.wait = []

namespace KState.Ordered

/-- Every function of `process.c` keeps the order, and a fork leaves a running process. -/
theorem step (h : K.Ordered) (hs : K.Step e K') :
    K'.Ordered ∧ (K.currentPCB ≠ none ∨ e.forks = true → K'.currentPCB ≠ none) := by
  cases hs with
  | tick hs =>
      obtain ⟨p, rest, -, -, -, hc⟩ := h.tick_moves hs
      have hne : K'.currentPCB ≠ none := hc.trans_ne (by cases rest <;> simp)
      exact ⟨⟨h.tick hs, fun hn => absurd hn hne⟩, fun _ => hne⟩
  | fork hs =>
      obtain ⟨p, rest, -, -, ⟨-, -, hc⟩ | ⟨hr, hs', hc⟩⟩ := h.fork_moves hs
      · have hne : K'.currentPCB ≠ none := hc.trans_ne (by cases K.currentPCB <;> simp)
        exact ⟨⟨h.fork hs, fun hn => absurd hn hne⟩, fun _ => hne⟩
      · refine ⟨⟨h.fork hs, fun hn => ?_⟩, fun hf => ?_⟩
        · rw [hs']
          exact h.wait_nil (hc.symm.trans hn)
        · exact hc.trans_ne (hf.resolve_right (by simp [KEvent.forks, hr]))
  | exit current hs =>
      obtain ⟨q, rest, -, -, -, hc⟩ := h.exit_moves current hs
      have hne : K'.currentPCB ≠ none := hc.trans_ne (by cases rest <;> simp)
      exact ⟨⟨h.exit current hs, fun hn => absurd hn hne⟩, fun _ => hne⟩
  | sleep current hs =>
      obtain ⟨q, rest, -, -, -, hc⟩ := h.sleep_moves current hs
      have hne : K'.currentPCB ≠ none := hc.trans_ne (by simp)
      exact ⟨⟨h.sleep current hs, fun hn => absurd hn hne⟩, fun _ => hne⟩
  | @wakeup p _ waiting hs =>
      have hp := (h.waiting_iff p).mp waiting
      have running : K.currentPCB ≠ none := fun hn => by
        rw [h.wait_nil hn] at hp
        cases hp
      obtain ⟨-, -, hc⟩ := h.wakeup_moves hp hs
      have hne : K'.currentPCB ≠ none := hc.trans_ne running
      exact ⟨⟨h.wakeup running hp hs, fun hn => absurd hn hne⟩, fun _ => hne⟩

end KState.Ordered

/-- Whether a fork has succeeded so far. -/
def forkedAfter {σ : Type} (forked : Bool) (_ : σ) (e : KEvent) (_ : σ) : Bool :=
  forked || e.forks

/-- In every run of the process table, a fork leaves a running process for good. -/
theorem processes_ordered {s : KState × Bool}
    (h : (processSystem.observe false forkedAfter).Reachable s) :
    s.1.Ordered ∧ (s.2 = true → s.1.currentPCB ≠ none) := by
  induction h with
  | init h =>
      obtain ⟨⟨K₀, hK, e⟩, hf⟩ := h
      obtain ⟨K', e', hb⟩ := boot_spec hK
      obtain rfl := (Prod.mk.inj (Except.ok.inj (e.symm.trans e'))).2
      exact ⟨⟨hb.scheduled, fun _ => hb.empty .waitQueue (by simp)⟩, by simp [hf]⟩
  | step _ hs ih =>
      obtain ⟨ho, hr⟩ := ih.1.step hs.1
      refine ⟨ho, fun hf => hr ?_⟩
      rw [hs.2, forkedAfter, Bool.or_eq_true] at hf
      exact hf.imp_left ih.2

/-! ### The whole kernel -/

namespace Machine.Inv

/-- What a request of the running process leaves in the kernel. -/
theorem call_served (h : m.Inv) {c : Syscall} {r : Ret} {level : BitVec 4} (active : m.Active p)
    (legal : c.Legal m.kernel) (hs : c.run.run (m.kernel.setIntrs level) = .ok (r, K)) :
    Served (m.kernel.setIntrs level) p c r K ∧ (m.after p c r K).kernel = K := by
  refine ⟨served ((h.serving active.1).setIntrs level) ?_ hs, ?_⟩
  · cases c <;> exact legal
  · cases r <;> rfl

/-- A successful fork leaves a running process, and so does every other step if there is one. -/
theorem running (h : m.Inv) (hs : m.Step e m')
    (hr : m.kernel.currentPCB ≠ none ∨ e.forks = true) : m'.kernel.currentPCB ≠ none := by
  cases hs with
  | tick hs =>
      obtain ⟨p, rest, -, -, -, hc⟩ := h.tick_moves hs
      exact hc.trans_ne (by cases rest <;> simp)
  | fork hs =>
      obtain ⟨p, rest, -, -, ⟨-, -, hc⟩ | ⟨hr', -, hc⟩⟩ := h.fork_moves hs
      · exact hc.trans_ne (by cases m.kernel.currentPCB <;> simp)
      · exact hc.trans_ne (hr.resolve_right (by simp [KEvent.forks, hr']))
  | exit active hs =>
      obtain ⟨q, rest, -, -, -, hc⟩ := h.exit_moves active.1 hs
      exact hc.trans_ne (by cases rest <;> simp)
  | sleep active hs =>
      obtain ⟨q, rest, -, -, -, hc⟩ := h.sleep_moves active.1 hs
      exact hc.trans_ne (by simp)
  | wakeup running outside waiting hs =>
      obtain ⟨-, -, hc⟩ := h.wakeup_moves ((h.waiting_iff _).mp waiting) hs
      exact hc.trans_ne running
  | call active legal hs =>
      obtain ⟨hsv, hk⟩ := h.call_served active legal hs
      rw [hk]
      have old : m.kernel.currentPCB ≠ none := by simp [active.1]
      cases hsv with
      | call hd hu hp => exact hp.running
      | refused hc => exact old
      | newSem hu hc => exact hc.current.trans_ne old
      | newLock hu hc => exact hc.current.trans_ne old
      | newCond hu hk hc => exact hc.current.trans_ne old
  | resume current pending hs =>
      obtain ⟨rfl, rfl⟩ := Prod.mk.inj (Except.ok.inj (show
        Except.ok (syncSuccess, m.kernel.setIntrs _) = _ from hs))
      simp [Machine.setPending, Machine.setKernel, KState.setIntrs, current]

end Machine.Inv

/-- In every run of the kernel, a fork leaves a running process for good. -/
theorem kernel_running {s : Machine × Bool}
    (h : (kernelSystem.observe false forkedAfter).Reachable s) :
    s.2 = true → s.1.kernel.currentPCB ≠ none := by
  induction h with
  | init h => simp [h.2]
  | @step s e s' tail hs ih =>
      intro hf
      rw [hs.2, forkedAfter, Bool.or_eq_true] at hf
      exact (reachable_inv tail.unobserved).running hs.1 (hf.imp_left ih)

/-- A state of a run after at least one successful fork: of the process table by itself, or of
the kernel, where processes also sleep in the synchronization primitives. -/
inductive Returned : KState → Prop
  | processes {K : KState} (h : (processSystem.observe false forkedAfter).Reachable (K, true)) :
      Returned K
  | kernel {m : Machine} (h : (kernelSystem.observe false forkedAfter).Reachable (m, true)) :
      Returned m.kernel

/-- Whenever the kernel returns to a process, the process table is in order. -/
theorem process_table_in_order (h : Returned K) : K.InOrder := by
  cases h with
  | processes h =>
      obtain ⟨ho, hr⟩ := processes_ordered h
      exact ho.inOrder (hr rfl)
  | kernel h => exact (reachable_inv h.unobserved).inOrder (kernel_running h rfl)

theorem process_table_in_order_first_fork :
    ∃ (K : KState) (p : PcbPtr), K.currentPCB = some p ∧ Returned K ∧ K.InOrder := by
  obtain ⟨m, hinit⟩ := exists_init
  obtain ⟨hb, -⟩ := hinit.blank
  cases hfree : m.kernel.sched.free with
  | nil =>
      have hf := hb.free ⟨0, by decide⟩
      rw [show m.kernel.list .freepcbs = [] from hfree] at hf
      cases hf
  | cons p rest =>
      obtain ⟨K, hs, -, -, hc⟩ :=
        hinit.inv.fork_steps hfree (a := ⟨1, 1, some 3⟩) (by simp) (by simp) (by simp)
      have start : (kernelSystem.observe false forkedAfter).Reachable (m, false) := .init ⟨hinit, rfl⟩
      have hr : Returned K :=
        .kernel (m := m.setKernel K) (start.step ⟨hs, by simp [forkedAfter, KEvent.forks]⟩)
      exact ⟨K, p, by rw [hc, hb.current]; rfl, hr, process_table_in_order hr⟩

end DlxOs.Kernel
