import DlxOs.Kernel.Views

/-!
# What the synchronization primitives do

Each function of `synch.c` that a process calls on an object in use makes the
call that the monitor defines, and moves the caller and the process it wakes
between the lists of the scheduler. It does so unless it ends the simulation
because the last runnable process goes to sleep.
-/

namespace DlxOs.Kernel

open Queue Monitors

abbrev KCall := Call PcbPtr SemPtr LockPtr CondPtr

/-- What the result of a kernel function means to its caller. -/
def Ret.outcome : Ret → Outcome
  | .returned r => .returned (decide (r = syncSuccess))
  | .asleep _ => .blocked

/-- The locks in use name their owners, and the condition variables in use their locks. -/
structure Sane (K : KState) : Prop where
  pids : ∀ k, (K.locks k).inuse = true →
    (K.locks k).pid = -1 ∨ ∃ q : PcbPtr, (K.locks k).pid = q.val
  bounds : ∀ c, (K.conds c).inuse = true →
    ∃ k : LockPtr, (K.conds c).lock = k.val ∧ (K.locks k).inuse = true

/-- The kernel works for process `p`, and its tables make sense. -/
structure Serving (K : KState) (p : PcbPtr) : Prop where
  table : Table K
  current : K.currentPCB = some p
  head : K.sched.run.head? = some p
  zombies : K.sched.zombies = []
  queued : ∀ w, ∀ q ∈ K.monitor.waiting w, q ∈ K.sched.wait
  sane : Sane K

/-- What all actions of a call keep. -/
structure Keeps (K K' : KState) : Prop where
  inuse : K'.inuse = K.inuse
  conds : K'.conds = K.conds
  pids : ∀ k, (K'.locks k).pid = (K.locks k).pid ∨ (K'.locks k).pid = -1 ∨
    ∃ q : PcbPtr, (K'.locks k).pid = q.val
  console : ∃ texts, K'.console = K.console ++ texts ∧ ∀ t ∈ texts, IsNotice t

/-- The monitor made the call, and the scheduler moved the processes concerned. -/
structure Performed (K : KState) (p : PcbPtr) (d : KCall) (r : Ret) (K' : KState) : Prop where
  table : Table K'
  call : K.monitor.call p d = (r.outcome, K'.monitor)
  sched : K'.sched = if r.outcome = .blocked then (K.sched.wake (K.monitor.woken p d)).sleep p
    else K.sched.wake (K.monitor.woken p d)
  current : K'.currentPCB = K'.sched.run.head?
  running : K'.currentPCB ≠ none
  keeps : Keeps K K'

/-- Process `p` goes to sleep in call `d` as the last one that can run, and wakes up nobody. -/
@[mk_iff] structure LastSleeps (K : KState) (p : PcbPtr) (d : KCall) : Prop where
  blocked : (K.monitor.call p d).1 = .blocked
  alone : K.sched.run = [p]
  wakes : K.monitor.woken p d = none

/-- `f` is the call `d` of process `p`; the simulation ends if `p` sleeps as the last one. -/
def Calls (f : KernelM Ret) (K : KState) (p : PcbPtr) (d : KCall) : Prop :=
  Ends f K (lastTexts (K.sched.wait ++ [p])) ∧ LastSleeps K p d ∨
    ∃ r K', f.run K = .ok (r, K') ∧ Performed K p d r K'

variable {K X : KState} {p q : PcbPtr} {w : WaitObject} {d : KCall} {f : KernelM Ret}

theorem current_run (hc : K.currentPCB = some p) : current.run K = .ok (p, K) := by
  simp [current, hc]
  rfl

namespace Keeps

theorem refl (K : KState) : Keeps K K :=
  ⟨rfl, rfl, fun _ => .inl rfl, [], by simp, by simp⟩

theorem remake (h : Keeps K X) (hp : Heap KQueue PcbPtr) (b : PcbPtr → PCB) :
    Keeps K (X.remake hp b) :=
  ⟨(KState.remake_inuse ..).trans h.inuse, h.conds, h.pids, h.console⟩

theorem setIntrs (h : Keeps K X) (level : BitVec 4) : Keeps K (X.setIntrs level) :=
  ⟨(KState.setIntrs_inuse ..).trans h.inuse, h.conds, h.pids, h.console⟩

theorem setCurrent (h : Keeps K X) (o : Option PcbPtr) : Keeps K (X.setCurrent o) :=
  ⟨(KState.setCurrent_inuse ..).trans h.inuse, h.conds, h.pids, h.console⟩

theorem setCount (h : Keeps K X) (s : SemPtr) (n : Int) : Keeps K (X.setCount s n) :=
  ⟨(KState.setCount_inuse ..).trans h.inuse, h.conds, h.pids, h.console⟩

theorem setPid (h : Keeps K X) (k : LockPtr) {v : Int} (hv : v = -1 ∨ ∃ q : PcbPtr, v = q.val) :
    Keeps K (X.setPid k v) := by
  refine ⟨(KState.setPid_inuse ..).trans h.inuse, h.conds, fun j => ?_, h.console⟩
  by_cases e : j = k
  · subst e
    simp [KState.setPid, hv]
  · simpa [KState.setPid, e] using h.pids j

theorem say (h : Keeps K X) {texts : List String} (ht : ∀ t ∈ texts, IsNotice t) :
    Keeps K (X.say texts) := by
  obtain ⟨before, e, hq⟩ := h.console
  refine ⟨(KState.say_inuse ..).trans h.inuse, h.conds, h.pids, before ++ texts, ?_,
    fun t hm => (List.mem_append.mp hm).elim (hq t) (ht t)⟩
  rw [KState.say, e, List.append_assoc]

theorem trans {K'' : KState} (h : Keeps K X) (h' : Keeps X K'') : Keeps K K'' := by
  obtain ⟨texts, e, hq⟩ := h.console
  obtain ⟨more, e', hq'⟩ := h'.console
  refine ⟨h'.inuse.trans h.inuse, h'.conds.trans h.conds, fun k => ?_, texts ++ more, ?_,
    fun t ht => (List.mem_append.mp ht).elim (hq t) (hq' t)⟩
  · rcases h'.pids k with c | c
    · rw [c]
      exact h.pids k
    · exact .inr c
  · rw [e', e, List.append_assoc]

/-- The tables make sense after the actions of a call. -/
theorem sane (h : Keeps K X) (hs : Sane K) : Sane X := by
  have hl : ∀ k, (X.locks k).inuse = (K.locks k).inuse := fun k => congrFun h.inuse (.lock k)
  refine ⟨fun k hk => ?_, fun c hc => ?_⟩
  · rcases h.pids k with e | e
    · rw [e]
      exact hs.pids k (hl k ▸ hk)
    · exact e
  · rw [h.conds] at hc ⊢
    obtain ⟨k, e, hk⟩ := hs.bounds c hc
    exact ⟨k, e, (hl k).trans hk⟩

end Keeps

namespace Performed

variable {r : Ret} {K' : KState}

/-- Runnable processes stay runnable, the caller apart. -/
theorem run_of_ne (h : Performed K p d r K') (hq : q ∈ K.sched.run) (hne : q ≠ p) :
    q ∈ K'.sched.run := by
  have hw : q ∈ (K.sched.wake (K.monitor.woken p d)).run := by
    rw [Sched.wake_run]
    exact List.mem_append_left _ hq
  rw [h.sched]
  split_ifs
  · exact (List.mem_erase_of_ne hne).mpr hw
  · exact hw

/-- The caller stays runnable if it does not sleep. -/
theorem caller_run (h : Performed K p d r K') (hb : r.outcome ≠ .blocked)
    (hp : p ∈ K.sched.run) : p ∈ K'.sched.run := by
  rw [h.sched, if_neg hb, Sched.wake_run]
  exact List.mem_append_left _ hp

theorem woken_run (h : Performed K p d r K') (hw : K.monitor.woken p d = some q) (hne : q ≠ p) :
    q ∈ K'.sched.run := by
  have hq : q ∈ (K.sched.wake (K.monitor.woken p d)).run := by simp [Sched.wake_run, hw]
  rw [h.sched]
  split_ifs
  · exact (List.mem_erase_of_ne hne).mpr hq
  · exact hq

/-- The woken process stops sleeping, and the caller starts to if the call sleeps. -/
theorem wait_eq (h : Performed K p d r K') :
    K'.sched.wait = without K.sched.wait (K.monitor.woken p d) ++
      if r.outcome = .blocked then [p] else [] := by
  rw [h.sched]
  split_ifs
  · rw [Sched.sleep, Sched.wake_wait]
  · rw [Sched.wake_wait, List.append_nil]

theorem free_eq (h : Performed K p d r K') : K'.sched.free = K.sched.free := by
  rw [h.sched]
  split_ifs <;> simp [Sched.sleep]

theorem zombies_eq (h : Performed K p d r K') : K'.sched.zombies = K.sched.zombies := by
  rw [h.sched]
  split_ifs <;> simp [Sched.sleep]

theorem waiting_eq (h : Performed K p d r K')
    (unique : ∀ q w v, q ∈ K.monitor.waiting w → q ∈ K.monitor.waiting v → w = v)
    (w : WaitObject) :
    K'.monitor.waiting w = without (K.monitor.waiting w) (K.monitor.woken p d) ++
      if r.outcome = .blocked ∧ K.monitor.point d = some w then [p] else [] := by
  have hw := call_waiting (p := p) (c := d) unique w
  rwa [h.call] at hw

theorem monitor_eq (h : Performed K p d r K') {o : Outcome}
    {mon : Monitor PcbPtr SemPtr LockPtr CondPtr} (hc : K.monitor.call p d = (o, mon)) :
    K'.monitor = mon :=
  (Prod.mk.inj (h.call.symm.trans hc)).2

theorem sched_returned {v : Int} (h : Performed K p d (.returned v) K') :
    K'.sched = K.sched.wake (K.monitor.woken p d) :=
  h.sched.trans (if_neg (by simp [Ret.outcome]))

theorem sched_asleep {i : BitVec 4} (h : Performed K p d (.asleep i) K') :
    K'.sched = (K.sched.wake (K.monitor.woken p d)).sleep p :=
  h.sched.trans (if_pos rfl)

/-- A sleep is a sleep in a queue. -/
theorem queued (h : Performed K p d r K') (hb : r.outcome = .blocked) :
    ∃ w, p ∈ K'.monitor.waiting w := by
  have hc := call_cases K.monitor p d
  rw [h.call, hb] at hc
  obtain ⟨w, -, hw⟩ := hc.mem_of_blocked
  exact ⟨w, hw⟩

end Performed

namespace Serving

theorem mem_run (h : Serving K p) : p ∈ K.sched.run := List.mem_of_mem_head? h.head

/-- The current process is queued nowhere. -/
theorem awake (h : Serving K p) (w : WaitObject) : p ∉ K.monitor.waiting w := fun hm => by
  cases h.table.sparse.apart .runQueue .waitQueue p rfl h.mem_run (h.queued w p hm)

theorem setIntrs (h : Serving K p) (level : BitVec 4) : Serving (K.setIntrs level) p where
  table := h.table.setIntrs level
  current := h.current
  head := by simpa using h.head
  zombies := by simpa using h.zombies
  queued w q hq := by simpa using h.queued w q (by simpa using hq)
  sane := ⟨h.sane.pids, h.sane.bounds⟩

theorem getCurrentPid_run (h : Serving K p) : getCurrentPid.run K = .ok ((p.val : Int), K) := by
  rw [getCurrentPid, run_bind_ok (Kernel.current_run h.current)]
  rfl

/-- The caller owns the lock just when the lock holds its pid. -/
theorem owner_eq_some {k : LockPtr} (hk : K.inuse (.lock k) = true) (q : PcbPtr) :
    K.monitor.owner k = some q ↔ (K.locks k).pid = q.val := by
  have hk' : (K.locks k).inuse = true := hk
  simp [KState.monitor, hk', index_eq_some]

theorem owner_eq_none (h : Serving K p) {k : LockPtr} (hk : K.inuse (.lock k) = true) :
    K.monitor.owner k = none ↔ (K.locks k).pid < 0 := by
  have hk' : (K.locks k).inuse = true := hk
  rcases h.sane.pids k hk' with e | ⟨q, e⟩
  · simp [KState.monitor, hk', e]
  · simp [KState.monitor, hk', e]

/-- The call returns without sleeping. -/
theorem returns (h : Serving K p) {r : Int} (e : f.run K = .ok (.returned r, X)) (hT : Table X)
    (hcall : K.monitor.call p d = (.returned (decide (r = syncSuccess)), X.monitor))
    (hs : X.sched = K.sched.wake (K.monitor.woken p d)) (keeps : Keeps K X)
    (hc : X.currentPCB = some p) : Calls f K p d := by
  refine .inr ⟨.returned r, X, e, hT, hcall, ?_, ?_, by simp [hc], keeps⟩
  · rw [if_neg (by simp [Ret.outcome])]
    exact hs
  · rw [hc, hs, Sched.wake_run, List.head?_append, h.head]
    rfl

/-- The call is refused with a message. -/
theorem refuses (h : Serving K p) {t : String} (ht : IsNotice t)
    (e : f.run K = .ok (.returned syncFail, ((K.setIntrs 0xf).say [t]).setIntrs K.intrs))
    (hcall : K.monitor.call p d = (.returned false, K.monitor))
    (hw : K.monitor.woken p d = none) : Calls f K p d := by
  have hT : Table ((K.setIntrs 0xf).say [t]) := (h.table.setIntrs 0xf).congr rfl rfl (by simp)
  refine h.returns e (hT.setIntrs _) ?_ ?_ ?_ h.current
  · rw [hcall]
    simp [syncFail, syncSuccess]
  · simp [hw]
  · exact (((Keeps.refl K).setIntrs _).say (by simpa using ht)).setIntrs _

/-- Nobody is left to run only if the caller was alone and wakes up nobody. -/
theorem last_of_erase (h : Serving K p) {o : Option PcbPtr}
    (hrun : (K.sched.wake o).run.erase p = []) : K.sched.run = [p] ∧ o = none := by
  obtain ⟨others, hothers⟩ := List.head?_eq_some_iff.mp h.head
  rw [Sched.wake_run, hothers, List.cons_append, List.erase_cons_head,
    List.append_eq_nil_iff] at hrun
  exact ⟨by rw [hothers, hrun.1], Option.toList_eq_nil_iff.mp hrun.2⟩

/-- The call sleeps after its actions on the queues. -/
theorem sleeps (h : Serving K p) {i : BitVec 4}
    (e : f.run K = (do processSleep; return .asleep i : KernelM Ret).run X) (hT : Table X)
    (hcall : K.monitor.call p d = (.blocked, X.monitor))
    (hs : X.sched = K.sched.wake (K.monitor.woken p d)) (keeps : Keeps K X)
    (hconsole : X.console = K.console) (hc : X.currentPCB = some p) : Calls f K p d := by
  have hp : p ∈ X.sched.run := by
    rw [hs, Sched.wake_run]
    exact List.mem_append_left _ h.mem_run
  have hz : X.sched.zombies = [] := by rw [hs, Sched.wake_zombies, h.zombies]
  cases hrun : X.sched.run.erase p with
  | nil =>
      obtain ⟨alone, wakes⟩ := h.last_of_erase (hs ▸ hrun)
      have e' := hT.processSleep_halts hc hrun hp
      rw [hs, wakes, Sched.wake_none] at e'
      refine .inl ⟨?_, by rw [hcall], alone, wakes⟩
      rw [Ends, e, StateT.run_bind, e', hconsole]
      rfl
  | cons q rest =>
      obtain ⟨hp', b, e', hT', hm, hs'⟩ := hT.processSleep_does hc hrun hp hz
      refine .inr ⟨.asleep i, _, ?_, hT', ?_, ?_, ?_, by simp [KState.setCurrent],
        (keeps.setCurrent _).remake hp' b⟩
      · rw [e, run_bind_ok e']
        rfl
      · rw [hcall, hm]
        rfl
      · rw [if_pos (by rfl), hs', hs]
      · rw [hs']
        simp [Sched.sleep, hrun, KState.setCurrent]

end Serving

end DlxOs.Kernel
