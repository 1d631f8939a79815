import DlxOs.Kernel.Simulation

/-!
# Steps that the kernel can take

A fork succeeds as long as there are a free PCB and memory, a creation as long
as its table has an entry left, and a request on an object in use as long as
another process can run while the caller sleeps. So there are reachable states
in which processes wait for a lock and on a condition variable.
-/

namespace DlxOs.Kernel

open Queue Monitors Transition

variable {m m' : Machine} {K : KState} {p q : PcbPtr} {c : Syscall} {d : KCall} {r : Ret}
  {s : SemPtr} {k : LockPtr} {b : CondPtr}

namespace Machine.Inv

/-- A fork with a free PCB and memory takes the PCB. -/
theorem fork_steps (h : m.Inv) {rest : List PcbPtr} (hfree : m.kernel.sched.free = p :: rest)
    {a : ForkAnswers} (hu : a.userPage ≠ 0) (hs : a.stackPage ≠ 0)
    (hfd : ∀ fd, a.fd = some fd → 0 ≤ fd) :
    ∃ K, m.Step (.fork a p.val) (m.setKernel K) ∧ Moves m.kernel K ∧
      K.sched = { m.kernel.sched with free := rest, run := m.kernel.sched.run ++ [p] } ∧
      K.currentPCB = m.kernel.currentPCB.or (some p) := by
  obtain ⟨K, e, -⟩ := processFork_runs h.table hfree hu hs hfd
  obtain ⟨p', rest', hfree', hm, ⟨-, hs', hc⟩ | ⟨hr, -⟩⟩ := h.fork_moves e
  · obtain ⟨rfl, rfl⟩ := List.cons.inj (hfree.symm.trans hfree')
    exact ⟨K, .fork e, hm, hs', hc⟩
  · exact absurd hr (by omega)

/-- The level of the interrupts may be any, in particular the one the kernel has. -/
theorem call_steps (active : m.Active p) (legal : c.Legal m.kernel)
    (e : c.run.run m.kernel = .ok (r, K)) : m.Step (.call p c r) (m.after p c r K) :=
  .call active legal (show c.run.run (m.kernel.setIntrs m.kernel.intrs) = .ok (r, K) from e)

/-- A request on an object in use is served if somebody can run while the caller sleeps. -/
theorem request_steps (h : m.Inv) (active : m.Active p) (legal : c.Legal m.kernel)
    (hd : c.meaning = some d) (hu : m.kernel.inuse d.target = true)
    (hrun : (m.kernel.monitor.call p d).1 = .blocked →
      (m.kernel.sched.wake (m.kernel.monitor.woken p d)).run.erase p ≠ []) :
    ∃ r K, m.Step (.call p c r) (m.after p c r K) ∧ Performed m.kernel p d r K := by
  rcases Syscall.run_calls (h.serving active.1) hd hu with ⟨-, hlast⟩ | ⟨r, K, e, hp⟩
  · have empty : (m.kernel.sched.wake (m.kernel.monitor.woken p d)).run.erase p = [] := by
      rw [hlast.wakes, Sched.wake_none, hlast.alone, List.erase_cons_head]
    exact absurd empty (hrun hlast.blocked)
  · exact ⟨r, K, call_steps active legal e, hp⟩

/-- A semaphore is created as long as one is unused. -/
theorem semCreate_steps (h : m.Inv) (active : m.Active p) (n : Int)
    (hs : m.kernel.inuse (.sem s) = false) :
    ∃ (s : SemPtr) (K : KState), m.Step (.call p (.semCreate n) (.returned s.val)) (m.setKernel K) ∧
      Created m.kernel (.sem s) K ∧ K.monitor = m.kernel.monitor.setCount s n := by
  obtain ⟨v, K, e, ⟨-, -, hfull⟩ | ⟨s, rfl, -, hc, hm, -⟩⟩ := semCreate_spec h.table n
  · rw [hfull s] at hs
    cases hs
  · have run : (Syscall.semCreate n).run.run m.kernel = .ok (.returned s.val, K) := by
      rw [Syscall.run, run_bind_ok e]
      rfl
    exact ⟨s, K, call_steps active trivial run, hc, hm⟩

/-- A lock is created as long as one is unused. -/
theorem lockCreate_steps (h : m.Inv) (active : m.Active p)
    (hk : m.kernel.inuse (.lock k) = false) :
    ∃ (k : LockPtr) (K : KState), m.Step (.call p .lockCreate (.returned k.val)) (m.setKernel K) ∧
      Created m.kernel (.lock k) K ∧ K.monitor = m.kernel.monitor.setOwner k none := by
  obtain ⟨v, K, e, ⟨-, -, hfull⟩ | ⟨k, rfl, -, hc, hm, -⟩⟩ := lockCreate_spec h.table
  · rw [hfull k] at hk
    cases hk
  · have run : Syscall.lockCreate.run.run m.kernel = .ok (.returned k.val, K) := by
      rw [Syscall.run, run_bind_ok e]
      rfl
    exact ⟨k, K, call_steps active trivial run, hc, hm⟩

/-- A condition variable is created for a lock in use as long as one is unused. -/
theorem condCreate_steps (h : m.Inv) (active : m.Active p) (hk : m.kernel.inuse (.lock k) = true)
    (hb : m.kernel.inuse (.cond b) = false) :
    ∃ (b : CondPtr) (K : KState),
      m.Step (.call p (.condCreate k.val) (.returned b.val)) (m.setKernel K) ∧
      Created m.kernel (.cond b) K ∧ K.conds b = ⟨k.val, true⟩ ∧
      K.monitor = { m.kernel.monitor with bound := Function.update m.kernel.monitor.bound b k } := by
  obtain ⟨hn, -⟩ | ⟨v, K, e, ⟨-, -, hfull⟩ | ⟨b, j, rfl, hj, -, -, hc, hm, -, hconds⟩⟩ :=
    condCreate_spec h.table k.val
  · rw [index_val] at hn
    cases hn
  · rw [hfull k rfl hk b] at hb
    cases hb
  · obtain rfl : k = j := Fin.ext (by omega)
    have run : (Syscall.condCreate k.val).run.run m.kernel = .ok (.returned b.val, K) := by
      rw [Syscall.run, run_bind_ok e]
      rfl
    exact ⟨b, K, call_steps active trivial run, hc, by rw [hconds, Function.update_self], hm⟩

/-- A request that the monitor grants at once succeeds. -/
theorem granted_steps (h : m.Inv) (active : m.Active p) (legal : c.Legal m.kernel)
    (hd : c.meaning = some d) (hu : m.kernel.inuse d.target = true)
    (hr : (m.kernel.monitor.call p d).1 = .returned true) :
    ∃ K, m.Step (.call p c (.returned syncSuccess)) (m.setKernel K) ∧
      Performed m.kernel p d (.returned syncSuccess) K := by
  obtain ⟨r, K, hs, hp⟩ := h.request_steps active legal hd hu fun hb => by
    rw [hr] at hb
    cases hb
  rw [hp.call] at hr
  cases r with
  | asleep i => cases hr
  | returned v =>
      obtain rfl : v = syncSuccess := by simpa [Ret.outcome] using hr
      exact ⟨K, hs, hp⟩

/-- A request on which the monitor blocks sleeps, if somebody can run then. -/
theorem blocked_steps (h : m.Inv) (active : m.Active p) (legal : c.Legal m.kernel)
    (hd : c.meaning = some d) (hu : m.kernel.inuse d.target = true)
    (hr : (m.kernel.monitor.call p d).1 = .blocked)
    (hrun : (m.kernel.sched.wake (m.kernel.monitor.woken p d)).run.erase p ≠ []) :
    ∃ i K, m.Step (.call p c (.asleep i)) (m.after p c (.asleep i) K) ∧
      Performed m.kernel p d (.asleep i) K := by
  obtain ⟨r, K, hs, hp⟩ := h.request_steps active legal hd hu fun _ => hrun
  rw [hp.call] at hr
  cases r with
  | asleep i => exact ⟨i, K, hs, hp⟩
  | returned v => cases hr

end Machine.Inv

/-! ### Reachable states with processes that wait -/

/-- Forks and requests of the trap handler, and timer interrupts. -/
def KEvent.Plain : KEvent → Prop
  | .tick => True
  | .fork _ _ => True
  | .call _ (.lockTransfer _ _) _ => False
  | .call _ _ _ => True
  | _ => False

/-- Two processes run, outside all calls, after plain steps only. -/
structure Scene (m : Machine) (p q : PcbPtr) : Prop where
  reach : (kernelSystem.restrict fun _ e => e.Plain).Reachable m
  ne : p ≠ q
  run : m.kernel.sched.run = [p, q]
  outside : ∀ r, m.pending r = none

namespace Scene

theorem inv (h : Scene m p q) : m.Inv := reachable_inv h.reach.unrestricted

theorem active (h : Scene m p q) : m.Active p :=
  ⟨by rw [h.inv.current, h.run]; rfl, h.outside p⟩

/-- A step that leaves the run queue alone leaves the scene. -/
theorem setKernel (h : Scene m p q) {e : KEvent} (hs : m.Step e (m.setKernel K)) (he : e.Plain)
    (hrun : K.sched.run = m.kernel.sched.run) : Scene (m.setKernel K) p q :=
  ⟨h.reach.step ⟨hs, he⟩, h.ne, hrun.trans h.run, h.outside⟩

/-- Nobody waits where nobody is inside a call. -/
theorem waiting (h : Scene m p q) (w : WaitObject) : m.kernel.monitor.waiting w = [] := by
  refine List.eq_nil_iff_forall_not_mem.mpr fun r hr => ?_
  obtain ⟨d, hd, -⟩ := h.inv.sound.pending w r hr
  simp [Machine.view, h.outside r] at hd

end Scene

/-- There is a state of static memory, and so an initial state. -/
theorem exists_init : ∃ m : Machine, m.Init := by
  let K : KState :=
    { heap := ⟨fun _ => none, fun _ => none, fun _ => none, fun _ => none, fun _ => none,
        fun _ => none, fun _ => 0⟩
      pcbs := fun _ => ⟨0, none⟩, currentPCB := none, sems := fun _ => ⟨0, false⟩
      locks := fun _ => ⟨0, false⟩, conds := fun _ => ⟨0, false⟩, intrs := 0, console := [] }
  have hK : Static K := ⟨fun w => by cases w <;> rfl, fun _ => rfl, rfl⟩
  obtain ⟨K', e, -⟩ := boot_spec hK
  exact ⟨⟨K', fun _ => none⟩, ⟨K, hK, e⟩, fun _ => rfl⟩

/-- After two forks two processes run, and nothing has been created. -/
theorem exists_scene : ∃ m p q, Scene m p q ∧ ∀ w, m.kernel.inuse w = false := by
  obtain ⟨m, hinit⟩ := exists_init
  obtain ⟨hb, -⟩ := hinit.blank
  have hinv := hinit.inv
  have hr₀ : m.kernel.sched.run = [] := hb.empty .runQueue (by simp)
  have hw₀ : m.kernel.sched.wait = [] := hb.empty .waitQueue (by simp)
  cases hfree : m.kernel.sched.free with
  | nil =>
      have hf := hb.free ⟨0, by decide⟩
      rw [show m.kernel.list .freepcbs = [] from hfree] at hf
      cases hf
  | cons p rest =>
      obtain ⟨K₁, hs₁, hm₁, e₁, -⟩ :=
        hinv.fork_steps hfree (a := ⟨1, 1, none⟩) (by simp) (by simp) (by simp)
      have hinv₁ := (hinv.step hs₁).1
      have hr₁ : K₁.sched.run = [p] := by rw [e₁]; simp [hr₀]
      have hw₁ : K₁.sched.wait = [] := by rw [e₁]; exact hw₀
      cases hfree₁ : K₁.sched.free with
      | nil =>
          obtain ⟨q, hq⟩ : ∃ q : PcbPtr, q ≠ p := exists_ne (α := Fin 32) p
          have hpl : q ∈ K₁.sched.free ∨ q ∈ K₁.sched.run ∨ q ∈ K₁.sched.wait := hinv₁.placed q
          simp [hfree₁, hr₁, hw₁, hq] at hpl
      | cons q rest₁ =>
          obtain ⟨K₂, hs₂, hm₂, e₂, -⟩ :=
            hinv₁.fork_steps (m := m.setKernel K₁) hfree₁ (a := ⟨1, 1, none⟩) (by simp) (by simp)
              (by simp)
          have reach : (kernelSystem.restrict fun _ e => e.Plain).Reachable m := .init hinit
          refine ⟨_, p, q, ⟨(reach.step ⟨hs₁, trivial⟩).step ⟨hs₂, trivial⟩, ?_, ?_, hinit.2⟩,
            fun w => ?_⟩
          · rintro rfl
            have hp : p ∈ K₁.list .runQueue := by
              rw [show K₁.list .runQueue = [p] from hr₁]
              simp
            have hf : p ∈ K₁.list .freepcbs := by
              rw [show K₁.list .freepcbs = p :: rest₁ from hfree₁]
              simp
            cases hinv₁.table.sparse.apart .runQueue .freepcbs p rfl hp hf
          · change K₂.sched.run = _
            rw [e₂]
            change K₁.sched.run ++ [q] = _
            rw [hr₁]
            rfl
          · change K₂.inuse w = false
            rw [hm₂.inuse]
            change K₁.inuse w = false
            rw [hm₁.inuse]
            exact hb.inuse w

/-- A lock and a condition variable bound to it are created. -/
theorem exists_lock_scene : ∃ (m : Machine) (p q : PcbPtr) (k : LockPtr) (c : CondPtr),
    Scene m p q ∧ m.kernel.inuse (.lock k) = true ∧ m.kernel.conds c = ⟨k.val, true⟩ ∧
      m.kernel.monitor.owner k = none := by
  obtain ⟨m, p, q, h, hunused⟩ := exists_scene
  obtain ⟨k, K₁, hs₁, hc₁, hm₁⟩ :=
    h.inv.lockCreate_steps h.active (k := ⟨0, by decide⟩) (hunused _)
  have h₁ := h.setKernel hs₁ trivial (congrArg Sched.run (KState.sched_congr hc₁.list))
  have hk : K₁.inuse (.lock k) = true := by simp [hc₁.inuse]
  have hb : K₁.inuse (.cond ⟨0, by decide⟩) = false := by simp [hc₁.inuse, hunused]
  obtain ⟨c, K₂, hs₂, hc₂, hcond, hm₂⟩ := h₁.inv.condCreate_steps h₁.active hk hb
  refine ⟨_, p, q, k, c,
    h₁.setKernel hs₂ trivial (congrArg Sched.run (KState.sched_congr hc₂.list)), ?_, hcond, ?_⟩
  · have hu : K₂.inuse = Function.update K₁.inuse (.cond c) true := hc₂.inuse
    change K₂.inuse (.lock k) = true
    simp [hu, hk]
  · have hm : K₂.monitor.owner = K₁.monitor.owner := by
      rw [hm₂]
      rfl
    change K₂.monitor.owner k = none
    rw [hm, hm₁]
    simp

/-- A process acquires a lock to which a condition variable is bound. -/
theorem exists_acquire : ∃ (m m' : Machine) (p q : PcbPtr) (k : LockPtr) (c : CondPtr),
    Scene m p q ∧ m.Step (.call p (.lockAcquire k.val) (.returned syncSuccess)) m' ∧
      m.kernel.inuse (.lock k) = true ∧ Scene m' p q ∧ m'.kernel.conds c = ⟨k.val, true⟩ ∧
      m'.kernel.monitor.owner k = some p := by
  obtain ⟨m, p, q, k, c, h, hk, hc, ho⟩ := exists_lock_scene
  have hcall : m.kernel.monitor.call p (.acquire k) =
      (.returned true, m.kernel.monitor.setOwner k (some p)) := by simp [Monitor.call, ho]
  obtain ⟨K, hs, hp⟩ := h.inv.granted_steps h.active trivial
    (c := .lockAcquire k.val) (d := .acquire k) (by simp [Syscall.meaning]) hk (by rw [hcall])
  refine ⟨m, _, p, q, k, c, h, hs, hk, h.setKernel hs trivial ?_, ?_, ?_⟩
  · rw [hp.sched_returned]
    rfl
  · exact (congrFun hp.keeps.conds c).trans hc
  · change K.monitor.owner k = some p
    rw [hp.monitor_eq hcall]
    simp

/-- One process waits on a condition variable, and another one owns the lock. -/
structure Waiting (m : Machine) (p q : PcbPtr) (k : LockPtr) (c : CondPtr) : Prop where
  reach : (kernelSystem.restrict fun _ e => e.Plain).Reachable m
  active : m.Active q
  bound : m.kernel.conds c = ⟨k.val, true⟩
  owner : m.kernel.monitor.owner k = some q
  waits : m.kernel.monitor.waiting (.cond c) = [p]
  queue : m.kernel.monitor.waiting (.lock k) = []
  run : m.kernel.sched.run = [q]

theorem exists_waiting :
    ∃ (m : Machine) (p q : PcbPtr) (k : LockPtr) (c : CondPtr),
    Waiting m p q k c := by
  obtain ⟨-, m, p, q, k, c, -, -, -, h, hc, ho⟩ := exists_acquire
  have hbound : m.kernel.monitor.bound c = k := by simp [KState.monitor, hc]
  have hu : m.kernel.inuse (.cond c) = true := by simp [KState.inuse, hc]
  have hk : m.kernel.inuse (.lock k) = true := hbound ▸ h.inv.sound.bound c hu
  -- the first process waits
  have hcall : m.kernel.monitor.call p (.wait c) =
      (.blocked, (m.kernel.monitor.enqueue (.cond c) p).handOver k) := by
    simp [Monitor.call, hbound, ho]
  have hwoken : m.kernel.monitor.woken p (.wait c) = none := by
    simp [Monitor.woken, hbound, ho, h.waiting]
  obtain ⟨i, K, hs, hp⟩ := h.inv.blocked_steps h.active trivial
    (c := .condWait c.val) (d := .wait c) (by simp [Syscall.meaning]) hu (by rw [hcall])
    (by simp [hwoken, h.run])
  have hrun : K.sched.run = [q] := by
    rw [hp.sched_asleep, hwoken]
    simp [Sched.sleep, h.run]
  have hmon := hp.monitor_eq hcall
  have hlock : (m.kernel.monitor.enqueue (.cond c) p).waiting (.lock k) = [] := by
    rw [Monitor.enqueue_of_ne _ _ _ _ (by simp), h.waiting]
  -- the other one acquires the lock
  have active : (m.after p (.condWait c.val) (.asleep i) K).Active q := by
    refine ⟨hp.current.trans (by rw [hrun]; rfl), ?_⟩
    simp [Machine.after, Machine.setPending, Machine.setKernel, h.ne.symm, h.outside]
  have hk' : K.inuse (.lock k) = true := by rw [hp.keeps.inuse]; exact hk
  have hcall' : K.monitor.call q (.acquire k) =
      (.returned true, K.monitor.setOwner k (some q)) := by
    simp [Monitor.call, hmon, Monitor.handOver_owner, hlock]
  obtain ⟨K', hs', hp'⟩ := (h.inv.step hs).1.granted_steps active trivial
    (c := .lockAcquire k.val) (d := .acquire k) (by simp [Syscall.meaning]) hk'
    (congrArg Prod.fst hcall')
  have hmon' : K'.monitor = K.monitor.setOwner k (some q) := hp'.monitor_eq hcall'
  have hrun' : K'.sched.run = [q] := (congrArg Sched.run hp'.sched_returned).trans hrun
  have hconds : K'.conds = m.kernel.conds := Eq.trans hp'.keeps.conds hp.keeps.conds
  refine ⟨_, p, q, k, c, (h.reach.step ⟨hs, trivial⟩).step ⟨hs', trivial⟩, ⟨?_, active.2⟩,
    (congrFun hconds c).trans hc, ?_, ?_, ?_, hrun'⟩
  · exact hp'.current.trans (by rw [hrun']; rfl)
  · change K'.monitor.owner k = some q
    rw [hmon']
    simp
  · change K'.monitor.waiting (.cond c) = [p]
    rw [hmon', hmon]
    simp [Monitor.handOver_waiting, h.waiting]
  · change K'.monitor.waiting (.lock k) = []
    rw [hmon', hmon]
    simp [Monitor.handOver_waiting, hlock]

/-- The owner of the lock can signal, and queues for the lock then. -/
theorem Waiting.signals {c : CondPtr} (h : Waiting m p q k c) :
    ∃ i K, m.Step (.call q (.condSignal c.val) (.asleep i))
        (m.after q (.condSignal c.val) (.asleep i) K) ∧
      K.monitor.waiting (.lock k) = [q] := by
  have hinv := reachable_inv h.reach.unrestricted
  have hbound : m.kernel.monitor.bound c = k := by simp [KState.monitor, h.bound]
  have hu : m.kernel.inuse (.cond c) = true := by simp [KState.inuse, h.bound]
  have hcall : m.kernel.monitor.call q (.signal c) = (.blocked,
      ((m.kernel.monitor.setWaiting (.cond c) []).setOwner k (some p)).enqueue (.lock k) q) := by
    simp [Monitor.call, hbound, h.owner, h.waits]
  have hwoken : m.kernel.monitor.woken q (.signal c) = some p := by
    simp [Monitor.woken, hbound, h.owner, h.waits]
  obtain ⟨i, K, hs, hp⟩ := hinv.blocked_steps h.active trivial
    (c := .condSignal c.val) (d := .signal c) (by simp [Syscall.meaning]) hu (by rw [hcall])
    (by simp [hwoken, Sched.wake, h.run])
  refine ⟨i, K, hs, ?_⟩
  rw [hp.monitor_eq hcall, Monitor.enqueue_self]
  simp [Monitor.setWaiting_of_ne, h.queue]

end DlxOs.Kernel
