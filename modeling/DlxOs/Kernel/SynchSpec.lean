import DlxOs.Kernel.CallSpec

/-!
# The functions of `synch.c` make the calls of the monitor

One lemma for each function. The statements that `LockRelease` and `CondWait`
share are treated once, in `passLock_does`.
-/

namespace DlxOs.Kernel

open Queue Monitors

variable {K : KState} {p q : PcbPtr} {s : SemPtr} {k : LockPtr} {c : CondPtr}

namespace Serving

theorem semWait_calls (h : Serving K p) (hs : K.inuse (.sem s) = true) :
    Calls (semWait s) K p (.semWait s) := by
  have h₀ := h.setIntrs 0xf
  by_cases hc : ((K.setIntrs 0xf).sems s).count ≤ 0
  · have hcall : K.monitor.call p (.semWait s) = (.blocked, K.monitor.enqueue (.sem s) p) :=
      if_pos hc
    obtain ⟨h₁, b₁, e₁, hT₁, hm₁, hs₁⟩ := h₀.table.enqueueCurrent_does (w := .sem s)
      (by simpa using hs) h₀.current h₀.awake
      "FATAL ERROR: could not allocate link for semaphore queue in SemWait!\n"
      "FATAL ERROR: could not insert new link into semaphore waiting queue in SemWait!\n"
    refine h.sleeps (i := K.intrs) ?_ hT₁ ?_ ?_ (((Keeps.refl K).setIntrs _).remake _ _) rfl
      h.current
    · rw [semWait, run_bind_ok disableIntrs_run, get_bind_run, if_pos hc, run_bind_ok e₁]
    · rw [hcall, hm₁, KState.setIntrs_monitor]
    · rw [hs₁, KState.setIntrs_sched]
      rfl
  · have hcall : K.monitor.call p (.semWait s) =
        (.returned true, K.monitor.setCount s (K.monitor.count s - 1)) := if_neg hc
    refine h.returns (r := syncSuccess)
      (X := ((K.setIntrs 0xf).setCount s ((K.sems s).count - 1)).setIntrs K.intrs)
      ?_ ?_ ?_ ?_ (((Keeps.refl K).setIntrs _).setCount _ _ |>.setIntrs _) h.current
    · rw [semWait, run_bind_ok disableIntrs_run, get_bind_run, if_neg hc]
      rfl
    · exact h₀.table.congr rfl rfl (by simp)
    · rw [hcall, KState.setIntrs_monitor, KState.setCount_monitor, KState.setIntrs_monitor]
      rfl
    · simp [Monitor.woken]

theorem semSignal_calls (h : Serving K p) (hs : K.inuse (.sem s) = true) :
    Calls (semSignal s) K p (.semSignal s) := by
  let K₀ := (K.setIntrs 0xf).setCount s ((K.sems s).count + 1)
  have hT₀ : Table K₀ := (h.table.setIntrs 0xf).congr rfl rfl (by simp [K₀])
  have e₀ : (modify (fun K => K.setCount s ((K.sems s).count + 1)) : KernelM Unit).run
      (K.setIntrs 0xf) = .ok ((), K₀) := rfl
  have hm₀ : K₀.monitor = K.monitor.setCount s (K.monitor.count s + 1) := by
    refine (KState.setCount_monitor ..).trans ?_
    rw [KState.setIntrs_monitor]
    rfl
  have hs₀ : K₀.sched = K.sched := by simp [K₀]
  have keeps : Keeps K K₀ := ((Keeps.refl K).setIntrs _).setCount _ _
  have hcount : (K₀.sems s).count = K.monitor.count s + 1 :=
    (congrFun (congrArg Monitor.count hm₀) s).trans (Monitor.setCount_self ..)
  have hempty := hT₀.isEmpty_waiting (w := .sem s) (by simpa [K₀] using hs)
  rw [show K₀.monitor.waiting (.sem s) = K.monitor.waiting (.sem s) by rw [hm₀]; rfl] at hempty
  by_cases hc : 0 < K.monitor.count s + 1
  · cases hw : K.monitor.waiting (.sem s) with
    | nil =>
        have hcall : K.monitor.call p (.semSignal s) =
            (.returned true, K.monitor.setCount s (K.monitor.count s + 1)) := by
          simp only [Monitor.call, hw]
        refine h.returns (r := syncSuccess) (X := K₀.setIntrs K.intrs) ?_ (hT₀.setIntrs _) ?_ ?_
          (keeps.setIntrs _) h.current
        · rw [hw] at hempty
          rw [semSignal, run_bind_ok disableIntrs_run, run_bind_ok e₀, get_bind_run, hcount,
            if_pos hc, run_bind_ok hempty]
          rfl
        · rw [hcall, KState.setIntrs_monitor, hm₀]
          rfl
        · simp [Monitor.woken, hs₀, hw]
    | cons q rest =>
        have hcall : K.monitor.call p (.semSignal s) =
            (.returned true, K.monitor.setWaiting (.sem s) rest) := by
          simp only [Monitor.call, hw, if_pos hc]
        have hwoken : K.monitor.woken p (.semSignal s) = some q := by
          simp [Monitor.woken, hc, hw]
        obtain ⟨h₁, b₁, e₁, hT₁, hm₁, hs₁⟩ := hT₀.dequeueFirst_does (w := .sem s)
          (by rw [hm₀]; exact hw)
          "FATAL ERROR: could not remove link from semaphore queue in SemSignal!\n"
        have hq : q ∈ (K₀.remake h₁ b₁).sched.wait := by
          rw [hs₁, hs₀]
          exact h.queued (.sem s) q (by simp [hw])
        obtain ⟨h₂, b₂, e₂, hT₂, hm₂, hs₂⟩ := hT₁.processWakeup_does hq
        let K₂ := K₀.remake h₂ b₂
        let K₃ := K₂.setCount s ((K₂.sems s).count - 1)
        refine h.returns (r := syncSuccess) (X := K₃.setIntrs K.intrs) ?_ ?_ ?_ ?_
          (((keeps.remake h₂ b₂).setCount _ _).setIntrs _) h.current
        · rw [hw] at hempty
          rw [semSignal, run_bind_ok disableIntrs_run, run_bind_ok e₀, get_bind_run, hcount,
            if_pos hc, run_bind_ok hempty]
          change StateT.run (dequeueFirst _ _ >>= _) K₀ = _
          rw [run_bind_ok e₁, run_bind_ok e₂]
          rfl
        · have hT₃ : Table K₃ := hT₂.congr rfl rfl (by simp [K₃, K₂])
          exact hT₃.setIntrs _
        · have hm₂' : K₂.monitor = (K.monitor.setCount s (K.monitor.count s + 1)).setWaiting (.sem s)
              rest := by
            rw [← hm₀, ← hm₁]
            exact hm₂
          have hn : (K₂.sems s).count - 1 = K.monitor.count s := by
            have : (K₂.sems s).count = K.monitor.count s + 1 := hcount
            omega
          rw [hcall, KState.setIntrs_monitor, KState.setCount_monitor, hm₂', hn]
          simp [Monitor.setWaiting, Monitor.setCount]
        · have hs₂' : K₂.sched = K.sched.wake (some q) := by
            rw [← hs₀, ← hs₁]
            exact hs₂
          rw [KState.setIntrs_sched, KState.setCount_sched, hs₂', hwoken]
  · have hcall : K.monitor.call p (.semSignal s) =
        (.returned true, K.monitor.setCount s (K.monitor.count s + 1)) := by
      cases hw : K.monitor.waiting (.sem s) with
      | nil => simp only [Monitor.call, hw]
      | cons q rest => simp only [Monitor.call, hw, if_neg hc]
    refine h.returns (r := syncSuccess) (X := K₀.setIntrs K.intrs) ?_ (hT₀.setIntrs _) ?_ ?_
      (keeps.setIntrs _) h.current
    · rw [semSignal, run_bind_ok disableIntrs_run, run_bind_ok e₀, get_bind_run, hcount, if_neg hc]
      rfl
    · rw [hcall, KState.setIntrs_monitor, hm₀]
      rfl
    · simp [Monitor.woken, hs₀, hc]

theorem lockAcquire_calls (h : Serving K p) (hk : K.inuse (.lock k) = true) :
    Calls (lockAcquire k) K p (.acquire k) := by
  have h₀ := h.setIntrs 0xf
  have hown := owner_eq_some hk p
  have hnone := h.owner_eq_none hk
  by_cases hp : ((K.setIntrs 0xf).locks k).pid = p.val
  · have hcall : K.monitor.call p (.acquire k) = (.returned true, K.monitor) :=
      if_pos (hown.mpr hp)
    refine h.returns (r := syncSuccess) (X := (K.setIntrs 0xf).setIntrs K.intrs) ?_
      (h₀.table.setIntrs _) ?_ ?_ (((Keeps.refl K).setIntrs _).setIntrs _) h.current
    · rw [lockAcquire, run_bind_ok disableIntrs_run, run_bind_ok h₀.getCurrentPid_run, get_bind_run,
        if_pos hp]
      rfl
    · rw [hcall, KState.setIntrs_monitor, KState.setIntrs_monitor]
      rfl
    · simp [Monitor.woken]
  by_cases hc : 0 ≤ ((K.setIntrs 0xf).locks k).pid
  · have hne : K.monitor.owner k ≠ some p := fun e => hp (hown.mp e)
    have hsome : (K.monitor.owner k).isSome := by
      rw [Option.isSome_iff_ne_none]
      exact fun e => absurd (hnone.mp e) (not_lt.mpr hc)
    have hcall : K.monitor.call p (.acquire k) = (.blocked, K.monitor.enqueue (.lock k) p) := by
      simp only [Monitor.call, if_neg hne, if_pos hsome]
    obtain ⟨h₁, b₁, e₁, hT₁, hm₁, hs₁⟩ := h₀.table.enqueueCurrent_does (w := .lock k)
      (by simpa using hk) h₀.current h₀.awake
      "FATAL ERROR: could not allocate link for lock queue in LockAcquire!\n"
      "FATAL ERROR: could not insert new link into lock waiting queue in LockAcquire!\n"
    refine h.sleeps (i := K.intrs) ?_ hT₁ ?_ ?_ (((Keeps.refl K).setIntrs _).remake _ _) rfl
      h.current
    · rw [lockAcquire, run_bind_ok disableIntrs_run, run_bind_ok h₀.getCurrentPid_run, get_bind_run,
        if_neg hp]
      change StateT.run (if 0 ≤ ((K.setIntrs 0xf).locks k).pid then _ else _) _ = _
      rw [if_pos hc, run_bind_ok e₁]
    · rw [hcall, hm₁, KState.setIntrs_monitor]
    · rw [hs₁, KState.setIntrs_sched]
      rfl
  · have hfree : K.monitor.owner k = none := hnone.mpr (not_le.mp hc)
    have hcall : K.monitor.call p (.acquire k) =
        (.returned true, K.monitor.setOwner k (some p)) := by
      simp [Monitor.call, hfree]
    refine h.returns (r := syncSuccess)
      (X := ((K.setIntrs 0xf).setPid k p.val).setIntrs K.intrs) ?_ ?_ ?_ ?_
      (((Keeps.refl K).setIntrs _).setPid k (.inr ⟨p, rfl⟩) |>.setIntrs _) h.current
    · rw [lockAcquire, run_bind_ok disableIntrs_run, run_bind_ok h₀.getCurrentPid_run, get_bind_run,
        if_neg hp]
      change StateT.run (if 0 ≤ ((K.setIntrs 0xf).locks k).pid then _ else _) _ = _
      rw [if_neg hc]
      rfl
    · have hT : Table ((K.setIntrs 0xf).setPid k p.val) := h₀.table.congr rfl rfl (by simp)
      exact hT.setIntrs _
    · rw [hcall, KState.setIntrs_monitor, KState.setPid_monitor (K.setIntrs 0xf) hk,
        KState.setIntrs_monitor,
        index_val]
      rfl
    · simp [Monitor.woken]

end Serving

/-- A lock passes to the first process that waits for it, which is woken up. -/
theorem passLock_does (h : Table K) (hk : K.inuse (.lock k) = true)
    (hw : ∀ q ∈ K.monitor.waiting (.lock k), q ∈ K.sched.wait) :
    ∃ X, Does (passLock k) K () X (K.monitor.handOver k)
        (K.sched.wake (K.monitor.waiting (.lock k)).head?) ∧
      Keeps K X ∧ X.console = K.console ∧ X.currentPCB = K.currentPCB := by
  let K₀ := K.setPid k (-1)
  have hT₀ : Table K₀ := h.congr rfl rfl (by simp [K₀])
  have e₀ : (modify (fun K => K.setPid k (-1)) : KernelM Unit).run K = .ok ((), K₀) := rfl
  have hm₀ : K₀.monitor = K.monitor.setOwner k none := by
    rw [← index_neg_one processMaxProcs]
    exact KState.setPid_monitor K hk (-1)
  have hs₀ : K₀.sched = K.sched := KState.setPid_sched ..
  have keeps₀ : Keeps K K₀ := (Keeps.refl K).setPid k (.inl rfl)
  have hempty := hT₀.isEmpty_waiting (w := .lock k) (by simpa [K₀] using hk)
  rw [show K₀.monitor.waiting (.lock k) = K.monitor.waiting (.lock k) by rw [hm₀]; rfl] at hempty
  cases hq : K.monitor.waiting (.lock k) with
  | nil =>
      rw [hq] at hempty
      refine ⟨K₀, ⟨K.heap, K.pcbs, ?_, hT₀, ?_, hs₀⟩, keeps₀, rfl, rfl⟩
      · rw [passLock, run_bind_ok e₀, run_bind_ok hempty]
        rfl
      · refine hm₀.trans ?_
        rw [Monitor.handOver, hq]
  | cons q rest =>
      rw [hq] at hempty
      obtain ⟨h₁, b₁, e₁, hT₁, hm₁, hs₁⟩ := hT₀.dequeueFirst_does (w := .lock k)
        (by rw [hm₀]; exact hq)
        "FATAL ERROR: could not remove link from lock queue in LockRelease!\n"
      let X := K₀.setPid k q.val
      have hT₂ : Table (X.remake h₁ b₁) := hT₁.congr rfl rfl (by simp [X])
      have e₂ : (modify (fun K => K.setPid k q.val) : KernelM Unit).run (K₀.remake h₁ b₁) =
          .ok ((), X.remake h₁ b₁) := rfl
      have hk₁ : (K₀.remake h₁ b₁).inuse (.lock k) = true := by simpa [K₀] using hk
      have hm₂ : (X.remake h₁ b₁).monitor = (K₀.remake h₁ b₁).monitor.setOwner k (some q) := by
        rw [← index_val q]
        exact KState.setPid_monitor (K₀.remake h₁ b₁) hk₁ q.val
      have hs₂ : (X.remake h₁ b₁).sched = K.sched :=
        (KState.setPid_sched (K₀.remake h₁ b₁) k q.val).trans (hs₁.trans hs₀)
      obtain ⟨h₃, b₃, e₃, hT₃, hm₃, hs₃⟩ := hT₂.processWakeup_does (p := q) (by
        rw [hs₂]
        exact hw q (by simp [hq]))
      refine ⟨X, ⟨h₃, b₃, ?_, hT₃, ?_, ?_⟩, keeps₀.setPid k (.inr ⟨q, rfl⟩), rfl, rfl⟩
      · rw [passLock, run_bind_ok e₀, run_bind_ok hempty]
        change StateT.run (dequeueFirst _ _ >>= _) K₀ = _
        rw [run_bind_ok e₁, run_bind_ok e₂]
        exact e₃
      · refine hm₃.trans ?_
        rw [hm₂, hm₁, hm₀, Monitor.handOver, hq]
        simp [Monitor.setOwner, Monitor.setWaiting]
      · refine hs₃.trans ?_
        rw [hs₂]
        rfl

namespace Serving

theorem lockRelease_calls (h : Serving K p) (hk : K.inuse (.lock k) = true) :
    Calls (lockRelease k) K p (.release k) := by
  have h₀ := h.setIntrs 0xf
  have hown := owner_eq_some hk p
  by_cases hp : ((K.setIntrs 0xf).locks k).pid ≠ p.val
  · have hcall : K.monitor.call p (.release k) = (.returned false, K.monitor) :=
      if_neg fun e => hp (hown.mp e)
    refine h.returns (r := syncFail) (X := K.setIntrs 0xf) ?_ h₀.table ?_ ?_
      ((Keeps.refl K).setIntrs _) h.current
    · rw [lockRelease, run_bind_ok disableIntrs_run, run_bind_ok h₀.getCurrentPid_run, get_bind_run,
        if_pos hp]
      rfl
    · rw [hcall, KState.setIntrs_monitor]
      rfl
    · rw [Monitor.woken, if_neg fun e => hp (hown.mp e), KState.setIntrs_sched]
      rfl
  · have ho : K.monitor.owner k = some p := hown.mpr (not_not.mp hp)
    have hcall : K.monitor.call p (.release k) = (.returned true, K.monitor.handOver k) :=
      if_pos ho
    obtain ⟨X, ⟨h₁, b₁, e₁, hT₁, hm₁, hs₁⟩, keeps, -, hc⟩ := passLock_does h₀.table
      (k := k) (by simpa using hk) (h₀.queued _)
    refine h.returns (r := syncSuccess) (X := (X.remake h₁ b₁).setIntrs K.intrs) ?_
      (hT₁.setIntrs _) ?_ ?_
      (((((Keeps.refl K).setIntrs _).trans keeps).remake h₁ b₁).setIntrs _) (hc.trans h.current)
    · rw [lockRelease, run_bind_ok disableIntrs_run, run_bind_ok h₀.getCurrentPid_run, get_bind_run,
        if_neg hp]
      change StateT.run (passLock k >>= _) _ = _
      rw [run_bind_ok e₁]
      rfl
    · rw [hcall, KState.setIntrs_monitor, hm₁, KState.setIntrs_monitor]
      rfl
    · rw [Monitor.woken, if_pos ho, KState.setIntrs_sched, hs₁, KState.setIntrs_sched,
        KState.setIntrs_monitor]

/-- The lock that a condition variable in use names. -/
theorem lockAt_run (h : Serving K p) (hc : K.inuse (.cond c) = true) :
    (lockAt (K.conds c).lock).run K = .ok (K.monitor.bound c, K) ∧
      K.inuse (.lock (K.monitor.bound c)) = true := by
  obtain ⟨k, e, hk⟩ := h.sane.bounds c hc
  have hb : K.monitor.bound c = k := by simp [KState.monitor, e]
  rw [lockAt, e, index_val, hb]
  exact ⟨rfl, hk⟩

theorem condWait_calls (h : Serving K p) (hc : K.inuse (.cond c) = true) :
    Calls (condWait c) K p (.wait c) := by
  have h₀ := h.setIntrs 0xf
  obtain ⟨elock, hk⟩ := h₀.lockAt_run (c := c) (by simpa using hc)
  rw [KState.setIntrs_monitor] at elock hk
  rw [KState.setIntrs_inuse] at hk
  generalize hbound : K.monitor.bound c = k at elock hk
  have hown := owner_eq_some hk p
  by_cases hp : ((K.setIntrs 0xf).locks k).pid ≠ p.val
  · have hne : K.monitor.owner (K.monitor.bound c) ≠ some p := fun e =>
      hp (hown.mp (hbound ▸ e))
    refine h.refuses .notOwner ?_ (if_neg hne) (if_neg hne)
    rw [condWait, run_bind_ok disableIntrs_run, get_bind_run, run_bind_ok elock,
      run_bind_ok h₀.getCurrentPid_run, get_bind_run, if_pos hp]
    rfl
  · have ho : K.monitor.owner (K.monitor.bound c) = some p := by
      rw [hbound]
      exact hown.mpr (not_not.mp hp)
    have hcall : K.monitor.call p (.wait c) =
        (.blocked, (K.monitor.enqueue (.cond c) p).handOver k) := by
      rw [← hbound]
      exact if_pos ho
    obtain ⟨h₁, b₁, e₁, hT₁, hm₁, hs₁⟩ := h₀.table.enqueueCurrent_does (w := .cond c)
      (by simpa using hc) h₀.current h₀.awake
      "FATAL ERROR: Could not allocate link for wait queue in CondWait!\n"
      "FATAL ERROR: Could not insert link for wait queue in CondWait!\n"
    rw [KState.setIntrs_monitor] at hm₁
    rw [KState.setIntrs_sched] at hs₁
    have hqueue : ((K.setIntrs 0xf).remake h₁ b₁).monitor.waiting (.lock k) =
        K.monitor.waiting (.lock k) := by
      rw [hm₁]
      exact Monitor.enqueue_of_ne _ _ _ _ (by simp)
    obtain ⟨X, ⟨h₂, b₂, e₂, hT₂, hm₂, hs₂⟩, keeps, hconsole, hcur⟩ := passLock_does hT₁ (k := k)
      (by simpa using hk) (by rw [hqueue, hs₁]; exact h.queued _)
    refine h.sleeps (i := K.intrs) (X := X.remake h₂ b₂) ?_ hT₂ ?_ ?_
      (((((Keeps.refl K).setIntrs _).remake h₁ b₁).trans keeps).remake h₂ b₂) hconsole
      (hcur.trans h.current)
    · rw [condWait, run_bind_ok disableIntrs_run, get_bind_run, run_bind_ok elock,
        run_bind_ok h₀.getCurrentPid_run, get_bind_run, if_neg hp]
      change StateT.run (enqueueCurrent _ _ _ >>= _) _ = _
      rw [run_bind_ok e₁, run_bind_ok e₂]
    · rw [hcall, hm₂, hm₁]
    · rw [hs₂, hs₁, hqueue, Monitor.woken, if_pos ho, hbound]

/-- A signal by a process that does not own the lock only prints a message. -/
theorem condSignal_refused (h : Serving K p) (hc : K.inuse (.cond c) = true)
    (hne : K.monitor.owner (K.monitor.bound c) ≠ some p) :
    (condSignal c).run K = .ok (.returned syncFail,
      ((K.setIntrs 0xf).say ["CondWait: Proc can't wait, doesn't own lock!\n"]).setIntrs
        K.intrs) := by
  have h₀ := h.setIntrs 0xf
  obtain ⟨elock, hk⟩ := h₀.lockAt_run (c := c) (by simpa using hc)
  rw [KState.setIntrs_monitor] at elock hk
  rw [KState.setIntrs_inuse] at hk
  have hp : ((K.setIntrs 0xf).locks (K.monitor.bound c)).pid ≠ p.val := fun e =>
    hne ((owner_eq_some hk p).mpr e)
  rw [condSignal, run_bind_ok disableIntrs_run, get_bind_run, run_bind_ok elock,
    run_bind_ok h₀.getCurrentPid_run, get_bind_run, if_pos hp]
  rfl

/-- A signal by the owner without anybody waiting leaves the kernel as it was. -/
theorem condSignal_none (h : Serving K p) (hc : K.inuse (.cond c) = true)
    (ho : K.monitor.owner (K.monitor.bound c) = some p) (hw : K.monitor.waiting (.cond c) = []) :
    (condSignal c).run K = .ok (.returned syncSuccess, K) := by
  have h₀ := h.setIntrs 0xf
  obtain ⟨elock, hk⟩ := h₀.lockAt_run (c := c) (by simpa using hc)
  rw [KState.setIntrs_monitor] at elock hk
  rw [KState.setIntrs_inuse] at hk
  have hp : ((K.setIntrs 0xf).locks (K.monitor.bound c)).pid = p.val := (owner_eq_some hk p).mp ho
  have hempty := h₀.table.isEmpty_waiting (w := .cond c) (by simpa using hc)
  rw [KState.setIntrs_monitor, hw] at hempty
  rw [condSignal, run_bind_ok disableIntrs_run, get_bind_run, run_bind_ok elock,
    run_bind_ok h₀.getCurrentPid_run, get_bind_run, if_neg (not_not.mpr hp)]
  change StateT.run (isEmpty _ >>= _) _ = _
  rw [run_bind_ok hempty]
  rfl

theorem condSignal_calls (h : Serving K p) (hc : K.inuse (.cond c) = true) :
    Calls (condSignal c) K p (.signal c) := by
  have h₀ := h.setIntrs 0xf
  obtain ⟨elock, hk⟩ := h₀.lockAt_run (c := c) (by simpa using hc)
  rw [KState.setIntrs_monitor] at elock hk
  rw [KState.setIntrs_inuse] at hk
  generalize hbound : K.monitor.bound c = k at elock hk
  have hown := owner_eq_some hk p
  by_cases hp : ((K.setIntrs 0xf).locks k).pid ≠ p.val
  · have hne : K.monitor.owner (K.monitor.bound c) ≠ some p := fun e =>
      hp (hown.mp (hbound ▸ e))
    exact h.refuses .notOwner (h.condSignal_refused hc hne) (if_neg hne)
      (if_neg hne)
  · have ho : K.monitor.owner (K.monitor.bound c) = some p := by
      rw [hbound]
      exact hown.mpr (not_not.mp hp)
    have hempty := h₀.table.isEmpty_waiting (w := .cond c) (by simpa using hc)
    rw [KState.setIntrs_monitor] at hempty
    cases hw : K.monitor.waiting (.cond c) with
    | nil =>
        refine h.returns (h.condSignal_none hc ho hw) h.table ?_ ?_ (Keeps.refl K) h.current
        · simp only [Monitor.call, if_pos ho, hw]
          rfl
        · rw [Monitor.woken, if_pos ho, hw]
          rfl
    | cons q rest =>
        have hcall : K.monitor.call p (.signal c) = (.blocked,
            ((K.monitor.setWaiting (.cond c) rest).setOwner k (some q)).enqueue (.lock k) p) := by
          have ho' : K.monitor.owner k = some p := hbound ▸ ho
          simp only [Monitor.call, hbound, if_pos ho', hw]
        rw [hw] at hempty
        obtain ⟨h₁, b₁, e₁, hT₁, hm₁, hs₁⟩ := h₀.table.dequeueFirst_does (w := .cond c)
          (by rw [KState.setIntrs_monitor]; exact hw)
          "FATAL ERROR: Could not remove link from conditional queue in CondSignal!\n"
        rw [KState.setIntrs_monitor] at hm₁
        rw [KState.setIntrs_sched] at hs₁
        let X := (K.setIntrs 0xf).setPid k q.val
        have hT₂ : Table (X.remake h₁ b₁) := hT₁.congr rfl rfl (by simp [X])
        have e₂ : (modify (fun K => K.setPid k q.val) : KernelM Unit).run
            ((K.setIntrs 0xf).remake h₁ b₁) = .ok ((), X.remake h₁ b₁) := rfl
        have hm₂ : (X.remake h₁ b₁).monitor =
            (K.monitor.setWaiting (.cond c) rest).setOwner k (some q) := by
          rw [← hm₁, ← index_val q]
          exact KState.setPid_monitor ((K.setIntrs 0xf).remake h₁ b₁) hk q.val
        have hs₂ : (X.remake h₁ b₁).sched = K.sched :=
          (KState.setPid_sched ((K.setIntrs 0xf).remake h₁ b₁) k q.val).trans hs₁
        have hpw : ∀ v, p ∉ (X.remake h₁ b₁).monitor.waiting v := by
          intro v hv
          rw [hm₂] at hv
          by_cases e : v = .cond c
          · subst e
            rw [Monitor.setOwner_waiting, Monitor.setWaiting_self] at hv
            exact h.awake (.cond c) (by rw [hw]; exact List.mem_cons_of_mem _ hv)
          · rw [Monitor.setOwner_waiting, Monitor.setWaiting_of_ne _ _ _ _ e] at hv
            exact h.awake v hv
        obtain ⟨h₃, b₃, e₃, hT₃, hm₃, hs₃⟩ := hT₂.enqueueCurrent_does (w := .lock k)
          (by simpa [X] using hk) h.current hpw
          "FATAL ERROR: Could not allocate link for conditional lock queue in CondSignal!\n"
          "FATAL ERROR: Could not insert link for conditional lock wait queue in CondSignal!\n"
        obtain ⟨h₄, b₄, e₄, hT₄, hm₄, hs₄⟩ := hT₃.processWakeup_does (p := q) (by
          rw [hs₃, hs₂]
          exact h.queued (.cond c) q (by simp [hw]))
        refine h.sleeps (i := K.intrs) (X := X.remake h₄ b₄) ?_ hT₄ ?_ ?_
          ((((Keeps.refl K).setIntrs _).setPid k (.inr ⟨q, rfl⟩)).remake h₄ b₄) rfl h.current
        · rw [condSignal, run_bind_ok disableIntrs_run, get_bind_run, run_bind_ok elock,
            run_bind_ok h₀.getCurrentPid_run, get_bind_run, if_neg hp]
          change StateT.run (isEmpty _ >>= _) _ = _
          rw [run_bind_ok hempty]
          change StateT.run (dequeueFirst _ _ >>= _) _ = _
          rw [run_bind_ok e₁, run_bind_ok e₂, run_bind_ok e₃]
          change StateT.run (processWakeup q >>= _) _ = _
          rw [run_bind_ok e₄]
          rfl
        · rw [hcall, ← hm₂, ← hm₃]
          exact congrArg _ hm₄.symm
        · refine hs₄.trans ?_
          rw [hs₃, hs₂, Monitor.woken, if_pos ho, hw]
          rfl

end Serving

end DlxOs.Kernel
