import DlxOs.Kernel.ProcessTable

/-!
# Sleeping processes and waiting queues

Where processes sleep only in the synchronization primitives, the sleeping ones
are those on the waiting queues, each of them once. The checks of the status in
`ProcessSuspend` and `ProcessWakeup` never fail then.
-/

namespace DlxOs.Kernel

open Queue Monitors Transition

variable {m m' : Machine} {K K' : KState} {p q : PcbPtr} {e : KEvent} {c : Syscall}

/-- A process goes to sleep outside the synchronization primitives. -/
def KEvent.IsRaw : KEvent → Prop
  | .sleep _ => True
  | _ => False

/-- The texts on the console after a kernel function, whether it returns or ends the simulation. -/
def consoleAfter {α : Type} : Except Halt (α × KState) → Option (List String)
  | .ok (_, K) => some K.console
  | .error (.exitsim texts) => some texts
  | .error _ => none

/-- The sleeping processes are those on the waiting queues, and no check of a status fails. -/
structure Machine.SleepersMatch (m : Machine) : Prop where
  asleep : ∀ p, (p ∈ m.kernel.list .waitQueue ∧ m.kernel.statusOf p = processStatusWaiting) ↔
    ∃ w, p ∈ m.kernel.list (.waiting w)
  once : ∀ p w, p ∈ m.kernel.list (.waiting w) →
    (m.kernel.list (.waiting w)).count p = 1 ∧ ∀ v, p ∈ m.kernel.list (.waiting v) → v = w
  quiet : ∀ t ∈ m.kernel.console, ¬ IsAssertion t
  serves : ∀ (p : PcbPtr) (c : Syscall) (level : BitVec 4), m.Active p → c.Legal m.kernel →
    c.run.run (m.kernel.setIntrs level) = .error .wildAccess ∨
      ∃ texts, consoleAfter (c.run.run (m.kernel.setIntrs level)) = some texts ∧
        ∀ t ∈ texts, ¬ IsAssertion t

/-- A request prints notices. -/
theorem Served.console {r : Ret} (h : Served K p c r K') :
    ∃ texts, K'.console = K.console ++ texts ∧ ∀ t ∈ texts, IsNotice t := by
  have same : K'.console = K.console →
      ∃ texts, K'.console = K.console ++ texts ∧ ∀ t ∈ texts, IsNotice t :=
    fun e => ⟨[], by simp [e], by simp⟩
  cases h with
  | call hd hu hp => exact hp.keeps.console
  | refused hc => exact same rfl
  | newSem hu hc => exact same hc.console
  | newLock hu hc => exact same hc.console
  | newCond hu hk hc => exact same hc.console

/-- A request that does not go astray leaves only notices on the console. -/
theorem Serving.quiet (h : Serving K p) (legal : c.Legal K) (hquiet : ∀ t ∈ K.console, IsNotice t) :
    c.run.run K = .error .wildAccess ∨
      ∃ texts, consoleAfter (c.run.run K) = some texts ∧ ∀ t ∈ texts, IsNotice t := by
  have all : ∀ {texts}, (∀ t ∈ texts, IsNotice t) → ∀ t ∈ K.console ++ texts, IsNotice t :=
    fun ht t hm => (List.mem_append.mp hm).elim (hquiet t) (ht t)
  rcases Kernel.serves h legal with e | ⟨e, -⟩ | ⟨r, K', e, hserved⟩
  · exact .inl e
  · exact .inr ⟨_, by rw [e]; rfl, all (lastTexts_notices _)⟩
  · obtain ⟨texts, hc, ht⟩ := hserved.console
    exact .inr ⟨_, by rw [e]; rfl, hc ▸ all ht⟩

namespace Machine.Inv

/-- A step prints notices. -/
theorem console (h : m.Inv) (hs : m.Step e m') :
    ∃ texts, m'.kernel.console = m.kernel.console ++ texts ∧ ∀ t ∈ texts, IsNotice t := by
  have same : ∀ {K : KState}, K.console = m.kernel.console →
      ∃ texts, K.console = m.kernel.console ++ texts ∧ ∀ t ∈ texts, IsNotice t :=
    fun e => ⟨[], by simp [e], by simp⟩
  cases hs with
  | tick hs =>
      obtain ⟨p, rest, -, hm, -⟩ := h.tick_moves hs
      exact same hm.console
  | fork hs =>
      obtain ⟨p, rest, -, hm, -⟩ := h.fork_moves hs
      exact same hm.console
  | exit active hs =>
      obtain ⟨q, rest, -, hm, -⟩ := h.exit_moves active.1 hs
      exact same hm.console
  | sleep active hs =>
      obtain ⟨q, rest, -, hm, -⟩ := h.sleep_moves active.1 hs
      exact same hm.console
  | wakeup running outside waiting hs =>
      obtain ⟨hm, -⟩ := h.wakeup_moves ((h.waiting_iff _).mp waiting) hs
      exact same hm.console
  | call active legal hs =>
      obtain ⟨hsv, hk⟩ := h.call_served active legal hs
      rw [hk]
      exact hsv.console
  | resume current pending hs =>
      obtain ⟨rfl, rfl⟩ := Prod.mk.inj (Except.ok.inj (show
        Except.ok (syncSuccess, m.kernel.setIntrs _) = _ from hs))
      exact same rfl

/-- A call keeps that whoever sleeps is on a waiting queue. -/
theorem performed_queued (h : m.Inv) {d : KCall} {r : Ret}
    (hp : Performed m.kernel p d r K)
    (hq : ∀ q ∈ m.kernel.sched.wait, ∃ w, q ∈ m.kernel.monitor.waiting w) :
    ∀ q ∈ K.sched.wait, ∃ w, q ∈ K.monitor.waiting w := fun q hm => by
  rw [hp.wait_eq] at hm
  rcases List.mem_append.mp hm with hm | hm
  · obtain ⟨w, hw⟩ := hq q (mem_without hm)
    refine ⟨w, ?_⟩
    rw [hp.waiting_eq (fun q w v hw hv => h.sound.unique hw hv) w]
    refine List.mem_append_left _ (mem_without_of_ne hw fun e => ?_)
    rw [e] at hm
    exact not_mem_without (h.table.sparse.nodup .waitQueue) hm
  · split_ifs at hm with hb
    · exact List.mem_singleton.mp hm ▸ hp.queued hb
    · cases hm

/-- Without raw sleeps, whoever sleeps is on a waiting queue. -/
theorem asleep_queued (h : m.Inv) (hs : m.Step e m') (he : ¬ e.IsRaw)
    (hq : ∀ p ∈ m.kernel.sched.wait, ∃ w, p ∈ m.kernel.monitor.waiting w) :
    ∀ p ∈ m'.kernel.sched.wait, ∃ w, p ∈ m'.kernel.monitor.waiting w := by
  have same : ∀ {K : KState}, K.sched.wait = m.kernel.sched.wait →
      K.monitor.waiting = m.kernel.monitor.waiting →
      ∀ p ∈ K.sched.wait, ∃ w, p ∈ K.monitor.waiting w := fun hw hm => by
    rw [hw, hm]
    exact hq
  have kept : ∀ {K : KState}, K.list = m.kernel.list →
      ∀ p ∈ K.sched.wait, ∃ w, p ∈ K.monitor.waiting w := fun hl =>
    same (congrFun hl .waitQueue) (funext fun v => congrFun hl (.waiting v))
  cases hs with
  | @tick K hs =>
      obtain ⟨p, rest, -, hm, hs', -⟩ := h.tick_moves hs
      exact same (K := K) (by rw [hs']) (by rw [hm.monitor])
  | @fork _ _ K hs =>
      obtain ⟨p, rest, -, hm, ⟨-, hs', -⟩ | ⟨-, hs', -⟩⟩ := h.fork_moves hs
      · exact same (K := K) (by rw [hs']) (by rw [hm.monitor])
      · exact same (K := K) (by rw [hs']) (by rw [hm.monitor])
  | @exit _ K active hs =>
      obtain ⟨q, rest, -, hm, hs', -⟩ := h.exit_moves active.1 hs
      exact same (K := K) (by rw [hs']) (by rw [hm.monitor])
  | sleep active hs => exact absurd trivial he
  | wakeup running outside waiting hs =>
      obtain ⟨w, hw⟩ := hq _ ((h.waiting_iff _).mp waiting)
      exact absurd hw (h.not_queued outside w)
  | @call p c level r K active legal hs =>
      obtain ⟨h₀, -⟩ := h.setLevel level
      obtain ⟨hsv, hk⟩ := h.call_served active legal hs
      rw [hk]
      cases hsv with
      | call hd hu hp =>
          refine h₀.performed_queued hp fun q hm => ?_
          simpa [Machine.setKernel] using hq q (by simpa [Machine.setKernel] using hm)
      | refused hc => exact kept (KState.setIntrs_list ..)
      | newSem hu hc => exact kept (hc.list.trans (KState.setIntrs_list ..))
      | newLock hu hc => exact kept (hc.list.trans (KState.setIntrs_list ..))
      | newCond hu hk hc => exact kept (hc.list.trans (KState.setIntrs_list ..))
  | resume current pending hs =>
      obtain ⟨rfl, rfl⟩ := Prod.mk.inj (Except.ok.inj (show
        Except.ok (syncSuccess, m.kernel.setIntrs _) = _ from hs))
      exact kept (KState.setIntrs_list ..)

/-- The sleepers match where nobody sleeps outside the primitives. -/
theorem sleepersMatch (h : m.Inv)
    (hq : ∀ p ∈ m.kernel.sched.wait, ∃ w, p ∈ m.kernel.monitor.waiting w)
    (hquiet : ∀ t ∈ m.kernel.console, IsNotice t) : m.SleepersMatch where
  asleep p := by
    refine ⟨fun hp => hq p hp.1, fun ⟨w, hw⟩ => ?_⟩
    have hm := h.queued w p hw
    exact ⟨hm, (h.waiting_iff p).mpr hm⟩
  once p w hw := ⟨List.count_eq_one_of_mem (h.table.sparse.nodup _) hw, fun v hv =>
    h.sound.unique (show p ∈ m.view.mon.waiting v from hv) hw⟩
  quiet t ht := (hquiet t ht).not_isAssertion
  serves p c level active legal := by
    have legal₀ : c.Legal (m.kernel.setIntrs level) := by cases c <;> exact legal
    rcases ((h.serving active.1).setIntrs level).quiet legal₀ hquiet with e | ⟨texts, e, ht⟩
    · exact .inl e
    · exact .inr ⟨texts, e, fun t hm => (ht t hm).not_isAssertion⟩

end Machine.Inv

/-- Whoever sleeps is on a waiting queue, where nobody sleeps outside the primitives. -/
theorem reachable_queued (h : (kernelSystem.restrict fun _ e => ¬ e.IsRaw).Reachable m) :
    ∀ p ∈ m.kernel.sched.wait, ∃ w, p ∈ m.kernel.monitor.waiting w := by
  induction h with
  | init h =>
      obtain ⟨hb, -⟩ := Machine.Init.blank h
      intro p hp
      exact absurd (hb.empty .waitQueue (by simp) ▸ hp : p ∈ []) List.not_mem_nil
  | step tail hs ih => exact (reachable_inv tail.unrestricted).asleep_queued hs.1 hs.2 ih

/-- Nothing but notices has been printed. -/
theorem reachable_quiet (h : kernelSystem.Reachable m) : ∀ t ∈ m.kernel.console, IsNotice t := by
  induction h with
  | init h =>
      obtain ⟨hb, -⟩ := Machine.Init.blank h
      simp [hb.console]
  | step tail hs ih =>
      obtain ⟨texts, e, ht⟩ := (reachable_inv tail).console hs
      rw [e]
      exact fun t hm => (List.mem_append.mp hm).elim (ih t) (ht t)

/-- A plain step is no sleep outside the primitives. -/
theorem KEvent.Plain.not_raw (he : e.Plain) : ¬ e.IsRaw := fun hr => by
  cases e with
  | sleep p => exact False.elim he
  | _ => exact False.elim hr

/-- The sleeping processes are those on the waiting queues, each of them once. -/
theorem sleepers_match_waiters
    (h : (kernelSystem.restrict fun _ e => ¬ e.IsRaw).Reachable m) : m.SleepersMatch :=
  (reachable_inv h.unrestricted).sleepersMatch (reachable_queued h)
    (reachable_quiet h.unrestricted)

theorem sleepers_match_waiters_cond : ∃ (m : Machine) (p : PcbPtr) (b : CondPtr),
    p ∈ m.kernel.list (.waiting (.cond b)) ∧ m.SleepersMatch := by
  obtain ⟨m, p, q, k, b, h⟩ := exists_waiting
  have hp : p ∈ m.kernel.monitor.waiting (.cond b) := by simp [h.waits]
  exact ⟨m, p, b, hp, sleepers_match_waiters (h.reach.weaken fun _ _ => KEvent.Plain.not_raw)⟩

end DlxOs.Kernel
