import DlxOs.Kernel.Invariant

/-!
# The kernel is simulated by monitor sessions

A request whose handle names an object in use is a call of the session, a
creation adds an object, and a refused request changes nothing. With the steps
of the scheduler this covers every step of the machine.
-/

namespace DlxOs.Kernel

open Queue Monitors Transition

variable {m m' : Machine} {K K' : KState} {p q : PcbPtr} {c : Syscall} {d : KCall} {r : Ret}

/-- A request through a handle within the table. -/
theorem handled_run {n : Nat} {handle : Int} {inuse : KState → Fin n → Bool}
    {f : Fin n → KernelM Ret} {i : Fin n} (hi : index n handle = some i) :
    (handled handle inuse f).run K =
      (if inuse K i then f i else return .returned syncFail : KernelM Ret).run K := by
  rw [handled, hi]
  rfl

/-- A request through a handle outside the table is refused. -/
theorem handled_outside {n : Nat} {handle : Int} {inuse : KState → Fin n → Bool}
    {f : Fin n → KernelM Ret} (hi : index n handle = none) :
    (handled handle inuse f).run K = .ok (.returned syncFail, K) := by
  rw [handled, hi]
  rfl

namespace Syscall

/-- A request on an object that is not in use is refused. -/
theorem run_refused (hd : c.meaning = some d) (hu : K.inuse d.target = false)
    (legal : c.Legal K) : c.run.run K = .ok (.returned syncFail, K) := by
  have refused : ∀ {n : Nat} {handle : Int} {inuse : KState → Fin n → Bool}
      {f : Fin n → KernelM Ret} {i : Fin n}, index n handle = some i → inuse K i = false →
      (handled handle inuse f).run K = .ok (.returned syncFail, K) := by
    intro n handle inuse f i hi hu
    rw [handled_run hi, hu]
    rfl
  cases c with
  | semWait sem =>
      obtain ⟨s, hs, rfl⟩ := Option.map_eq_some_iff.mp hd
      exact refused hs hu
  | semSignal sem =>
      obtain ⟨s, hs, rfl⟩ := Option.map_eq_some_iff.mp hd
      exact refused hs hu
  | lockAcquire lock =>
      obtain ⟨k, hk, rfl⟩ := Option.map_eq_some_iff.mp hd
      exact refused hk hu
  | lockRelease lock =>
      obtain ⟨k, hk, rfl⟩ := Option.map_eq_some_iff.mp hd
      exact refused hk hu
  | condWait cond =>
      obtain ⟨b, hb, rfl⟩ := Option.map_eq_some_iff.mp hd
      exact refused hb hu
  | condSignal cond =>
      obtain ⟨b, hb, rfl⟩ := Option.map_eq_some_iff.mp hd
      exact refused hb hu
  | lockTransfer k pcb =>
      cases hd
      exact absurd legal.1 (by rw [show (K.locks k).inuse = false from hu]; simp)
  | _ => cases hd

/-- A request on an object in use is the call that it means. -/
theorem run_calls (h : Serving K p) (hd : c.meaning = some d) (hu : K.inuse d.target = true) :
    Calls c.run K p d := by
  have accepted : ∀ {n : Nat} {handle : Int} {inuse : KState → Fin n → Bool}
      {f : Fin n → KernelM Ret} {i : Fin n}, index n handle = some i → inuse K i = true →
      Calls (f i) K p d → Calls (handled handle inuse f) K p d := by
    intro n handle inuse f i hi hu hc
    have e : (handled handle inuse f).run K = (f i).run K := by rw [handled_run hi, if_pos hu]
    unfold Calls Ends at *
    rwa [e]
  cases c with
  | semWait sem =>
      obtain ⟨s, hs, rfl⟩ := Option.map_eq_some_iff.mp hd
      exact accepted hs hu (h.semWait_calls hu)
  | semSignal sem =>
      obtain ⟨s, hs, rfl⟩ := Option.map_eq_some_iff.mp hd
      exact accepted hs hu (h.semSignal_calls hu)
  | lockAcquire lock =>
      obtain ⟨k, hk, rfl⟩ := Option.map_eq_some_iff.mp hd
      exact accepted hk hu (h.lockAcquire_calls hu)
  | lockRelease lock =>
      obtain ⟨k, hk, rfl⟩ := Option.map_eq_some_iff.mp hd
      exact accepted hk hu (h.lockRelease_calls hu)
  | condWait cond =>
      obtain ⟨b, hb, rfl⟩ := Option.map_eq_some_iff.mp hd
      exact accepted hb hu (h.condWait_calls hu)
  | condSignal cond =>
      obtain ⟨b, hb, rfl⟩ := Option.map_eq_some_iff.mp hd
      exact accepted hb hu (h.condSignal_calls hu)
  | lockTransfer k pcb =>
      cases hd
      exact h.lockTransfer_calls hu pcb
  | _ => cases hd

end Syscall

/-- What the kernel does on a request of process `p`. -/
inductive Served (K : KState) (p : PcbPtr) : Syscall → Ret → KState → Prop
  | call {c : Syscall} {d : KCall} {r : Ret} {K' : KState} (hd : c.meaning = some d)
      (hu : K.inuse d.target = true) (hp : Performed K p d r K') : Served K p c r K'
  | refused {c : Syscall} (hc : ∀ d, c.meaning = some d → K.inuse d.target = false) :
      Served K p c (.returned syncFail) K
  | newSem {s : SemPtr} {n : Int} {K' : KState} (hu : K.inuse (.sem s) = false)
      (hc : Created K (.sem s) K') (hm : K'.monitor = K.monitor.setCount s n)
      (hlocks : K'.locks = K.locks)
      (hconds : K'.conds = K.conds) : Served K p (.semCreate n) (.returned s.val) K'
  | newLock {k : LockPtr} {K' : KState} (hu : K.inuse (.lock k) = false)
      (hc : Created K (.lock k) K') (hm : K'.monitor = K.monitor.setOwner k none)
      (hother : ∀ j, j ≠ k → K'.locks j = K.locks j)
      (hpid : (K'.locks k).pid = -1) (hconds : K'.conds = K.conds) :
      Served K p .lockCreate (.returned k.val) K'
  | newCond {c : CondPtr} {k : LockPtr} {K' : KState} (hu : K.inuse (.cond c) = false)
      (hk : K.inuse (.lock k) = true) (hc : Created K (.cond c) K')
      (hm : K'.monitor = { K.monitor with bound := Function.update K.monitor.bound c k })
      (hlocks : K'.locks = K.locks) (hconds : K'.conds = Function.update K.conds c ⟨k.val, true⟩) :
      Served K p (.condCreate k.val) (.returned c.val) K'

/-- With the request, process `p` goes to sleep as the last one that can run. -/
def Syscall.SleepsLast (c : Syscall) (K : KState) (p : PcbPtr) : Prop :=
  ∃ d, c.meaning = some d ∧ K.inuse d.target = true ∧ LastSleeps K p d

/-- A request is served in one of these ways, or the kernel follows a wild handle, or the last
runnable process goes to sleep. -/
theorem serves (h : Serving K p) (legal : c.Legal K) :
    c.run.run K = .error .wildAccess ∨
      (Ends c.run K (lastTexts (K.sched.wait ++ [p])) ∧ c.SleepsLast K p) ∨
      ∃ r K', c.run.run K = .ok (r, K') ∧ Served K p c r K' := by
  have refused : (∀ d, c.meaning = some d → K.inuse d.target = false) →
      c.run.run K = .ok (.returned syncFail, K) → c.run.run K = .error .wildAccess ∨
        (Ends c.run K (lastTexts (K.sched.wait ++ [p])) ∧ c.SleepsLast K p) ∨
        ∃ r K', c.run.run K = .ok (r, K') ∧ Served K p c r K' :=
    fun hc e => .inr (.inr ⟨_, _, e, .refused hc⟩)
  have outside : ∀ {α : Type} {n : Nat} {handle : Int} {f : Fin n → α},
      (index n handle).map f = none → index n handle = none := fun h => Option.map_eq_none_iff.mp h
  cases hd : c.meaning with
  | some d =>
      by_cases hu : K.inuse d.target = true
      · rcases Syscall.run_calls h hd hu with ⟨he, hlast⟩ | ⟨r, K', e, hp⟩
        · exact .inr (.inl ⟨he, d, hd, hu, hlast⟩)
        · exact .inr (.inr ⟨r, K', e, .call hd hu hp⟩)
      · refine refused (fun d' hd' => ?_) (Syscall.run_refused hd (by simpa using hu) legal)
        rw [hd] at hd'
        cases hd'
        simpa using hu
  | none =>
      have unmeant : ∀ d, c.meaning = some d → K.inuse d.target = false := fun d hd' => by
        rw [hd] at hd'
        cases hd'
      cases c with
      | semCreate n =>
          obtain ⟨v, K', e, hv⟩ := semCreate_spec h.table n
          refine .inr (.inr ⟨.returned v, K', by rw [Syscall.run, run_bind_ok e]; rfl, ?_⟩)
          rcases hv with ⟨rfl, rfl, -⟩ | ⟨s, rfl, hu, hc, hm, hlocks, hconds⟩
          · exact .refused unmeant
          · exact .newSem hu hc hm hlocks hconds
      | lockCreate =>
          obtain ⟨v, K', e, hv⟩ := lockCreate_spec h.table
          refine .inr (.inr ⟨.returned v, K', by rw [Syscall.run, run_bind_ok e]; rfl, ?_⟩)
          rcases hv with ⟨rfl, rfl, -⟩ | ⟨k, rfl, hu, hc, hm, hother, hpid, hconds⟩
          · exact .refused unmeant
          · exact .newLock hu hc hm hother hpid hconds
      | condCreate lock =>
          obtain ⟨-, he⟩ | ⟨v, K', e, hv⟩ := condCreate_spec h.table lock
          · refine .inl ?_
            rw [Syscall.run, StateT.run_bind, he]
            rfl
          refine .inr (.inr ⟨.returned v, K', by rw [Syscall.run, run_bind_ok e]; rfl, ?_⟩)
          rcases hv with ⟨rfl, rfl, -⟩ | ⟨b, k, rfl, rfl, hu, hk, hc, hm, hlocks, hconds⟩
          · exact .refused unmeant
          · exact .newCond hu hk hc hm hlocks hconds
      | lockTransfer k pcb => cases hd
      | semWait sem => exact refused unmeant (handled_outside (outside hd))
      | semSignal sem => exact refused unmeant (handled_outside (outside hd))
      | lockAcquire lock => exact refused unmeant (handled_outside (outside hd))
      | lockRelease lock => exact refused unmeant (handled_outside (outside hd))
      | condWait cond => exact refused unmeant (handled_outside (outside hd))
      | condSignal cond => exact refused unmeant (handled_outside (outside hd))

/-- A request that returns or sleeps is served. -/
theorem served (h : Serving K p) (legal : c.Legal K) (hs : c.run.run K = .ok (r, K')) :
    Served K p c r K' := by
  rcases serves h legal with e | ⟨e, -⟩ | ⟨r', K'', e, hserved⟩
  · cases hs.symm.trans e
  · cases hs.symm.trans e
  · rw [hs] at e
    obtain ⟨rfl, rfl⟩ := Prod.mk.inj (Except.ok.inj e)
    exact hserved

/-- A refused request is nothing to the processes. -/
theorem Machine.meaning_refused (hc : ∀ d, c.meaning = some d → m.kernel.inuse d.target = false) :
    m.meaning (.call p c (.returned syncFail)) = .idle := by
  cases hd : c.meaning with
  | some d => simp [Machine.meaning, hd, hc d hd]
  | none =>
      cases c with
      | condCreate lock => simp [Machine.meaning, Syscall.meaning, syncFail]
      | _ => simp [Machine.meaning, hd, syncFail]

namespace Machine.Inv

/-- The interrupt level is of no account. -/
theorem setLevel (h : m.Inv) (level : BitVec 4) :
    (m.setKernel (m.kernel.setIntrs level)).Inv ∧
      (m.setKernel (m.kernel.setIntrs level)).view = m.view := by
  refine h.moved ⟨h.table.setIntrs level, KState.setIntrs_monitor .., rfl, rfl, rfl, rfl⟩
    ⟨h.table.setIntrs level, ?_, ?_, ?_⟩ ?_ ?_
  all_goals rw [KState.setIntrs_sched]
  · exact h.zombies
  · exact h.placed
  · exact h.current
  · exact h.queued
  · exact fun _ _ _ hm => hm

/-- A call on an object in use is a call of the session. -/
theorem performed (h : m.Inv) (active : m.Active p) (hd : c.meaning = some d)
    (hu : m.kernel.inuse d.target = true) (hp : Performed m.kernel p d r K) :
    (m.after p c r K).Inv ∧ m.view.Step (.call p d r.outcome) (m.after p c r K).view := by
  obtain ⟨hcur, hpend⟩ := active
  have hview : m.view.pending p = none := by simp [Machine.view, hpend]
  have hcall : m.view.mon.call p d = (r.outcome, K.monitor) := hp.call
  have hsession : m.view.perform p d = (m.after p c r K).view := by
    have e : K.inuse = m.kernel.inuse := hp.keeps.inuse
    simp only [Session.perform, hcall]
    cases r with
    | returned v => simp [Machine.view, Machine.after, Machine.setKernel, Ret.outcome, e]
    | asleep i =>
        simp only [Machine.view, Machine.after, Machine.setKernel, Machine.setPending, Ret.outcome,
          if_true, e, Session.mk.injEq, true_and, and_true]
        funext p'
        by_cases c : p' = p <;> simp [c, hd]
  have hstep : m.view.Step (.call p d r.outcome) (m.after p c r K).view := by
    have := Session.Step.call (σ := m.view) (c := d) hview hu
    rwa [hcall, hsession] at this
  refine ⟨?_, hstep⟩
  have hkernel : (m.after p c r K).kernel = K := by cases r <;> rfl
  have hwait := hp.waiting_eq fun q w v hw hv => h.sound.unique hw hv
  have hprun : p ∈ m.kernel.sched.run := (h.serving hcur).mem_run
  have woken_ne : ∀ q, m.kernel.monitor.woken p d = some q → q ≠ p := fun q hq e => by
    obtain ⟨w, hw⟩ := woken_mem hq
    exact (h.serving hcur).awake w (e ▸ hw)
  have asleep : r.outcome = .blocked → p ∈ K.sched.wait := fun hb => by
    rw [hp.wait_eq, if_pos hb]
    simp
  have stays : ∀ q ∈ m.kernel.sched.wait, m.kernel.monitor.woken p d ≠ some q →
      q ∈ K.sched.wait := fun q hq hne => by
    rw [hp.wait_eq]
    exact List.mem_append_left _ (mem_without_of_ne hq hne)
  refine ⟨⟨?_, ?_, fun q => ?_, ?_⟩, ?_, h.sound.step hstep, fun w q hq => ?_, fun q e he => ?_⟩
  all_goals rw [hkernel] at *
  · exact hp.table
  · exact hp.zombies_eq.trans h.zombies
  · rcases h.placed q with hq | hq | hq
    · exact .inl (hp.free_eq ▸ hq)
    · by_cases hqp : q = p
      · subst hqp
        by_cases hb : r.outcome = .blocked
        · exact .inr (.inr (asleep hb))
        · exact .inr (.inl (hp.caller_run hb hq))
      · exact .inr (.inl (hp.run_of_ne hq hqp))
    · by_cases hw : m.kernel.monitor.woken p d = some q
      · exact .inr (.inl (hp.woken_run hw (woken_ne q hw)))
      · exact .inr (.inr (stays q hq hw))
  · exact hp.current
  · exact hp.keeps.sane h.sane
  · rw [hwait w] at hq
    rcases List.mem_append.mp hq with hq | hq
    · refine stays q (h.queued w q (mem_without hq)) fun e => ?_
      rw [e] at hq
      exact not_mem_without (h.sound.nodup w) hq
    · split_ifs at hq with hb
      · exact List.mem_singleton.mp hq ▸ asleep hb.1
      · cases hq
  · have old : ∀ q ≠ p, ∀ e, m.pending q = some e → e.1.meaning ≠ none ∧
        (q ∈ K.sched.run ∨ ∃ w, q ∈ K.monitor.waiting w) := by
      intro q hqp e he
      obtain ⟨hmean, hq | ⟨w, hq⟩⟩ := h.inside q e he
      · exact ⟨hmean, .inl (hp.run_of_ne hq hqp)⟩
      · refine ⟨hmean, ?_⟩
        by_cases hw : m.kernel.monitor.woken p d = some q
        · exact .inl (hp.woken_run hw hqp)
        · refine .inr ⟨w, ?_⟩
          rw [hwait w]
          exact List.mem_append_left _ (mem_without_of_ne hq hw)
    cases r with
    | returned v =>
        by_cases hqp : q = p
        · rw [hqp] at he
          exact absurd (hpend.symm.trans he) (by simp)
        · exact old q hqp e he
    | asleep i =>
        by_cases hqp : q = p
        · subst hqp
          have : e = (c, i) := by
            simpa [Machine.after, Machine.setKernel, Machine.setPending, eq_comm] using he
          subst this
          exact ⟨by simp [hd], .inr (hp.queued rfl)⟩
        · refine old q hqp e ?_
          simpa [Machine.after, Machine.setKernel, Machine.setPending, hqp] using he

/-- A creation adds an object to the session. -/
theorem created (h : m.Inv) {w : WaitObject}
    (hc : Created m.kernel w K) (hsane : Sane K) {e : KMonitorEvent}
    (hs : m.view.Step e (m.setKernel K).view) : (m.setKernel K).Inv := by
  have hsched : K.sched = m.kernel.sched := KState.sched_congr hc.list
  have hwait : K.monitor.waiting = m.kernel.monitor.waiting := by
    funext v
    exact congrFun hc.list (.waiting v)
  refine ⟨⟨hc.table, ?_, ?_, ?_⟩, hsane, h.sound.step hs, fun v => ?_, fun p e he => ?_⟩
  · exact (congrArg Sched.zombies hsched).trans h.zombies
  · intro p
    change p ∈ K.sched.free ∨ p ∈ K.sched.run ∨ p ∈ K.sched.wait
    rw [hsched]
    exact h.placed p
  · change K.currentPCB = K.sched.run.head?
    rw [hsched, hc.current]
    exact h.current
  · change ∀ q ∈ K.monitor.waiting v, q ∈ K.sched.wait
    rw [hsched, hwait]
    exact h.queued v
  · change e.1.meaning ≠ none ∧ (p ∈ K.sched.run ∨ ∃ w, p ∈ K.monitor.waiting w)
    rw [hsched, hwait]
    exact h.inside p e he

/-- A request of the current process, at the interrupt level of the kernel. -/
theorem call_here (h : m.Inv) (active : m.Active p) (legal : c.Legal m.kernel)
    (hs : c.run.run m.kernel = .ok (r, K)) :
    (m.after p c r K).Inv ∧ m.view.Step (m.meaning (.call p c r)) (m.after p c r K).view := by
  cases served (h.serving active.1) legal hs with
  | @call c d r K hd hu hp =>
      have hmean : m.meaning (.call p c r) = .call p d r.outcome := by
        simp [Machine.meaning, hd, hu]
      rw [hmean]
      exact h.performed active hd hu hp
  | refused hc =>
      rw [Machine.meaning_refused hc]
      exact ⟨h, .idle⟩
  | @newSem s n K hu hc hm hlocks hconds =>
      have hmean : m.meaning (.call p (.semCreate n) (.returned s.val)) = .newSem s n := by
        simp [Machine.meaning, Syscall.meaning]
      have hstep : m.view.Step (.newSem s n) (m.setKernel K).view := by
        have := Session.Step.newSem (σ := m.view) (n := n) hu
        simpa only [Machine.view, Machine.setKernel, hm, hc.inuse] using this
      refine ⟨h.created hc ⟨fun k hk => ?_, fun b hb => ?_⟩ hstep, hmean ▸ hstep⟩
      · rw [hlocks] at hk ⊢
        exact h.sane.pids k hk
      · rw [hconds] at hb ⊢
        rw [hlocks]
        exact h.sane.bounds b hb
  | @newLock k K hu hc hm hother hpid hconds =>
      have hmean : m.meaning (.call p .lockCreate (.returned k.val)) = .newLock k := by
        simp [Machine.meaning, Syscall.meaning]
      have hstep : m.view.Step (.newLock k) (m.setKernel K).view := by
        have := Session.Step.newLock (σ := m.view) hu
        simpa only [Machine.view, Machine.setKernel, hm, hc.inuse] using this
      refine ⟨h.created hc ⟨fun j hj => ?_, fun b hb => ?_⟩ hstep, hmean ▸ hstep⟩
      · by_cases hjk : j = k
        · exact .inl (hjk ▸ hpid)
        · rw [hother j hjk] at hj ⊢
          exact h.sane.pids j hj
      · rw [hconds] at hb ⊢
        obtain ⟨j, ej, hj⟩ := h.sane.bounds b hb
        have hjk : j ≠ k := fun c => by
          rw [show m.kernel.inuse (.lock k) = (m.kernel.locks k).inuse from rfl, ← c, hj] at hu
          cases hu
        exact ⟨j, ej, by rw [hother j hjk]; exact hj⟩
  | @newCond b k K hu hk hc hm hlocks hconds =>
      have hmean : m.meaning (.call p (.condCreate k.val) (.returned b.val)) = .newCond b k := by
        simp [Machine.meaning, Syscall.meaning]
      have hstep : m.view.Step (.newCond b k) (m.setKernel K).view := by
        have := Session.Step.newCond (σ := m.view) hu hk
        simpa only [Session.bindCond, Machine.view, Machine.setKernel, hm, hc.inuse] using this
      refine ⟨h.created hc ⟨fun j hj => ?_, fun a ha => ?_⟩ hstep, hmean ▸ hstep⟩
      · rw [hlocks] at hj ⊢
        exact h.sane.pids j hj
      · by_cases hab : a = b
        · refine ⟨k, ?_, ?_⟩
          · rw [hconds, hab, Function.update_self]
          · rw [hlocks]
            exact hk
        · rw [hconds, Function.update_of_ne hab] at ha ⊢
          rw [hlocks]
          exact h.sane.bounds a ha

/-- A request of the current process. -/
theorem call (h : m.Inv) (active : m.Active p) {level : BitVec 4} (legal : c.Legal m.kernel)
    (hs : c.run.run (m.kernel.setIntrs level) = .ok (r, K)) :
    (m.after p c r K).Inv ∧ m.view.Step (m.meaning (.call p c r)) (m.after p c r K).view := by
  obtain ⟨h₀, hview⟩ := h.setLevel level
  have legal₀ : c.Legal (m.kernel.setIntrs level) := by
    cases c <;> exact legal
  have hmean : (m.setKernel (m.kernel.setIntrs level)).meaning (.call p c r) =
      m.meaning (.call p c r) := by
    simp only [Machine.meaning, Machine.setKernel, KState.setIntrs_inuse]
  have hafter : (m.setKernel (m.kernel.setIntrs level)).after p c r K = m.after p c r K := by
    cases r <;> rfl
  have := h₀.call_here (p := p) ⟨active.1, active.2⟩ legal₀ hs
  rwa [hmean, hafter, hview] at this

/-- The return from a call after a sleep. -/
theorem resume (h : m.Inv) {i : BitVec 4} {v : Int} (hcur : m.kernel.currentPCB = some p)
    (hpend : m.pending p = some (c, i)) (hs : (wakeReturn i).run m.kernel = .ok (v, K)) :
    ((m.setKernel K).setPending p none).Inv ∧
      m.view.Step (m.meaning (.resume p c v)) ((m.setKernel K).setPending p none).view := by
  obtain ⟨rfl, rfl⟩ := Prod.mk.inj (Except.ok.inj (show
    Except.ok (syncSuccess, m.kernel.setIntrs i) = _ from hs))
  obtain ⟨h₀, hview⟩ := h.setLevel i
  obtain ⟨hmean, -⟩ := h.inside p _ hpend
  obtain ⟨d, hd⟩ := Option.ne_none_iff_exists'.mp hmean
  have hpend' : m.view.pending p = some d := by simp [Machine.view, hpend, hd]
  have hret : m.meaning (.resume p c syncSuccess) = .ret p d := by simp [Machine.meaning, hd]
  have hfinish : m.view.finish p =
      ((m.setKernel (m.kernel.setIntrs i)).setPending p none).view := by
    simp only [Session.finish, Machine.view, Machine.setPending, Machine.setKernel,
      KState.setIntrs_monitor, KState.setIntrs_inuse, Session.mk.injEq, true_and, and_true]
    funext q
    by_cases e : q = p <;> simp [e]
  have hstep := Session.Step.ret hpend' (h.serving hcur).awake
  rw [hfinish] at hstep
  refine ⟨⟨⟨h₀.table, h₀.zombies, h₀.placed, h₀.current⟩, ⟨h₀.sane.pids, h₀.sane.bounds⟩,
    h.sound.step hstep, h₀.queued, fun q e he => ?_⟩, hret ▸ hstep⟩
  refine h₀.inside q e ?_
  by_cases c : q = p
  · simp [Machine.setPending, c] at he
  · simpa [Machine.setPending, c] using he

/-- Every step of the machine keeps the invariant and is a step of the session. -/
theorem step (h : m.Inv) {e : KEvent} (hs : m.Step e m') :
    m'.Inv ∧ m.view.Step (m.meaning e) m'.view := by
  have quiet : ∀ {K}, (m.setKernel K).Inv ∧ (m.setKernel K).view = m.view →
      (m.setKernel K).Inv ∧ m.view.Step .idle (m.setKernel K).view := fun ⟨hi, hv⟩ => by
    rw [hv]
    exact ⟨hi, .idle⟩
  cases hs with
  | tick hs => exact quiet (h.tick hs)
  | fork hs => exact quiet (h.fork hs)
  | sleep active hs => exact quiet (h.sleep active hs)
  | wakeup running outside waiting hs => exact quiet (h.wakeup running outside waiting hs)
  | exit active hs =>
      obtain ⟨hi, hv⟩ := h.exit active hs
      refine ⟨hi, ?_⟩
      rw [hv]
      exact .exit (by simp [Machine.view, active.2])
  | call active legal hs => exact h.call active legal hs
  | resume current pending hs => exact h.resume current pending hs

end Machine.Inv

/-- After the initialisation the session is blank. -/
theorem Machine.Init.blank (h : m.Init) : Booted m.kernel ∧ m.view.Blank := by
  obtain ⟨⟨K, hK, e⟩, hpend⟩ := h
  obtain ⟨K', e', hb⟩ := boot_spec hK
  rw [e] at e'
  obtain rfl := (Prod.mk.inj (Except.ok.inj e')).2
  refine ⟨hb, fun w => hb.empty _ (by simp), fun k => ?_, fun p => ?_, hb.inuse⟩
  · have hk : (m.kernel.locks k).inuse = false := hb.inuse (.lock k)
    simp [Machine.view, KState.monitor, hk]
  · simp [Machine.view, hpend]

theorem Booted.scheduled {K : KState} (h : Booted K) : Scheduled K := by
  refine ⟨h.table, h.empty .zombieQueue (by simp), fun p => .inl (h.free p), ?_⟩
  rw [h.current, show K.sched.run = [] from h.empty .runQueue (by simp)]
  rfl

theorem Machine.Init.inv (h : m.Init) : m.Inv := by
  obtain ⟨hb, hblank⟩ := h.blank
  have hwait : ∀ w, m.kernel.monitor.waiting w = [] := hblank.waiting
  refine ⟨hb.scheduled, ⟨fun k hk => ?_, fun c hc => ?_⟩, hblank.sound, fun w q hq => ?_,
    fun p e he => ?_⟩
  · rw [show (m.kernel.locks k).inuse = false from hb.inuse (.lock k)] at hk
    cases hk
  · rw [show (m.kernel.conds c).inuse = false from hb.inuse (.cond c)] at hc
    cases hc
  · rw [hwait] at hq
    cases hq
  · rw [h.2] at he
    cases he

/-- The invariant holds in every reachable state. -/
theorem reachable_inv (h : kernelSystem.Reachable m) : m.Inv :=
  h.invariant (P := Machine.Inv) (fun _ h => Machine.Init.inv h) fun _ _ _ _ h hs => (h.step hs).1

/-- The kernel refines the sessions of processes with a monitor. -/
theorem kernel_refines_sessions (h : kernelSystem.Reachable m) :
    (sessionSystem PcbPtr SemPtr LockPtr CondPtr).Reachable m.view := by
  have hinit : ∀ m, kernelSystem.Init m →
      ∃ σ, (sessionSystem PcbPtr SemPtr LockPtr CondPtr).Init σ ∧ m.Inv ∧ σ = m.view :=
    fun m hm => ⟨m.view, (Machine.Init.blank hm).2, Machine.Init.inv hm, rfl⟩
  obtain ⟨_, hreach, -, rfl⟩ := h.simulation hinit fun m e m' σ hσ hs => by
    obtain ⟨hinv, rfl⟩ := hσ
    obtain ⟨hinv', hview⟩ := hinv.step hs
    exact ⟨[_], m'.view, .cons hview (.nil _), hinv', rfl⟩
  exact hreach

end DlxOs.Kernel
