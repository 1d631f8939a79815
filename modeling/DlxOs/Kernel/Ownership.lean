import DlxOs.Kernel.Locks
import DlxOs.Kernel.ProcessTable

/-!
# The owners of locks and the life of processes

A lock names its owner by a PCB, and an exit frees the PCB without looking at
the locks. As long as nobody exits who owns a lock, the owner of a lock is a
live process that got the lock in its own lifetime. A process that exits with a
lock leaves it to a free PCB.
-/

namespace DlxOs.Kernel

open Queue Monitors Transition

variable {m m' : Machine} {K : KState} {p q : PcbPtr} {k : LockPtr} {c : Syscall} {r : Ret}
  {e : KEvent}

/-- Process `p` acquires lock `k` in a step, or is handed it by the owner. -/
inductive Obtains (before after : LockPtr → Lock) (p : PcbPtr) (k : LockPtr) : KEvent → Prop
  | acquired : Obtains before after p k (.call p (.lockAcquire k.val) (.returned syncSuccess))
  | handed {q : PcbPtr} {c : Syscall} {r : Ret} (ne : q ≠ p) (former : (before k).pid = q.val)
      (owner : (after k).pid = p.val) : Obtains before after p k (.call q c r)

/-- The locks that the process in each PCB has obtained since it was forked. -/
def obtainedNow (obtained : PcbPtr → LockPtr → Prop) (m : Machine) (e : KEvent) (m' : Machine) :
    PcbPtr → LockPtr → Prop :=
  match e with
  | .fork _ r => fun p k => obtained p k ∧ r ≠ p.val
  | e => fun p k => obtained p k ∨ Obtains m.kernel.locks m'.kernel.locks p k e

/-- An exit is that of a process which owns no lock. -/
def KEvent.OwnsNothing (m : Machine) : KEvent → Prop
  | .exit p => ∀ k, (m.kernel.locks k).inuse = true → (m.kernel.locks k).pid ≠ p.val
  | _ => True

/-- The kernel with the locks that the processes obtain. -/
def ownerSystem : System (Machine × (PcbPtr → LockPtr → Prop)) KEvent :=
  kernelSystem.observe (fun _ _ => False) obtainedNow

/-- The kernel in which no process exits that owns a lock. -/
def carefulSystem : System (Machine × (PcbPtr → LockPtr → Prop)) KEvent :=
  (kernelSystem.restrict fun m e => e.OwnsNothing m).observe (fun _ _ => False) obtainedNow

/-- Every lock that has an owner names a live process that obtained it since it was forked. -/
def Machine.OwnersLive (m : Machine) (obtained : PcbPtr → LockPtr → Prop) : Prop :=
  ∀ k, (m.kernel.locks k).inuse = true → 0 ≤ (m.kernel.locks k).pid →
    ∃ p : PcbPtr, (m.kernel.locks k).pid = p.val ∧
      (m.kernel.statusOf p = processStatusRunnable ∨ m.kernel.statusOf p = processStatusWaiting) ∧
      obtained p k

/-- An owner is not free and has obtained the lock. -/
def Machine.Owned (m : Machine) (obtained : PcbPtr → LockPtr → Prop) : Prop :=
  ∀ k p, m.kernel.monitor.owner k = some p → p ∉ m.kernel.sched.free ∧ obtained p k

variable {obtained : PcbPtr → LockPtr → Prop}

theorem KState.owner_inuse (h : K.monitor.owner k = some p) : (K.locks k).inuse = true := by
  simp only [KState.monitor] at h
  split_ifs at h with hu
  exact hu

/-- A process in the run queue or asleep is not free. -/
theorem Table.not_free (h : Table K) (hp : p ∈ K.sched.run ∨ p ∈ K.sched.wait) :
    p ∉ K.sched.free := fun hf => by
  rcases hp with hp | hp
  · cases h.sparse.apart .runQueue .freepcbs p rfl hp hf
  · cases h.sparse.apart .waitQueue .freepcbs p rfl hp hf

namespace Machine

/-- The owners of the invariant are the live owners of the locks. -/
theorem Owned.live (ho : m.Owned obtained) (h : m.Inv) : m.OwnersLive obtained := by
  intro k hk hpid
  obtain hn | ⟨p, hp⟩ := h.sane.pids k hk
  · omega
  obtain ⟨hfree, hobt⟩ := ho k p ((Serving.owner_eq_some hk p).mpr hp)
  refine ⟨p, hp, ?_, hobt⟩
  rcases h.placed p with hm | hm | hm
  · exact absurd hm hfree
  · exact .inl (h.table.status .runQueue _ rfl p hm)
  · exact .inr (h.table.status .waitQueue _ rfl p hm)

/-- A step in which no owner changes and no owner becomes free. -/
theorem Owned.moved (ho : m.Owned obtained) {obtained' : PcbPtr → LockPtr → Prop}
    (hm : m'.kernel.monitor.owner = m.kernel.monitor.owner)
    (hfree : ∀ k p, m.kernel.monitor.owner k = some p → p ∉ m.kernel.sched.free →
      p ∉ m'.kernel.sched.free ∧ (obtained p k → obtained' p k)) : m'.Owned obtained' := by
  intro k p hk
  rw [hm] at hk
  obtain ⟨hf, hobt⟩ := ho k p hk
  obtain ⟨hf', himp⟩ := hfree k p hk hf
  exact ⟨hf', himp hobt⟩

/-- A step that leaves the owners and the free processes as they are. -/
theorem Owned.keep (ho : m.Owned obtained) {obtained' : PcbPtr → LockPtr → Prop}
    (hm : m'.kernel.monitor.owner = m.kernel.monitor.owner)
    (hfree : m'.kernel.sched.free = m.kernel.sched.free)
    (himp : ∀ p k, obtained p k → obtained' p k) : m'.Owned obtained' := by
  apply ho.moved hm
  intro k p _ hf
  exact ⟨hfree ▸ hf, himp p k⟩

/-- Only a call of `LockAcquire` means `acquire`. -/
theorem meaning_acquire (hd : c.meaning = some (.acquire k)) : c = .lockAcquire k.val := by
  cases c with
  | lockAcquire lock =>
      obtain ⟨j, hj, e⟩ := Option.map_eq_some_iff.mp hd
      cases e
      rw [index_eq_some.mp hj]
  | lockTransfer j q => cases hd
  | semWait s => simp [Syscall.meaning] at hd
  | semSignal s => simp [Syscall.meaning] at hd
  | lockRelease j => simp [Syscall.meaning] at hd
  | condWait b => simp [Syscall.meaning] at hd
  | condSignal b => simp [Syscall.meaning] at hd
  | _ => cases hd

/-- Only a call of `LockTransfer` means `transfer`. -/
theorem meaning_transfer (hd : c.meaning = some (.transfer k q)) : c = .lockTransfer k q := by
  cases c with
  | lockTransfer j o =>
      cases hd
      rfl
  | semWait s => simp [Syscall.meaning] at hd
  | semSignal s => simp [Syscall.meaning] at hd
  | lockAcquire j => simp [Syscall.meaning] at hd
  | lockRelease j => simp [Syscall.meaning] at hd
  | condWait b => simp [Syscall.meaning] at hd
  | condSignal b => simp [Syscall.meaning] at hd
  | _ => cases hd

/-- A call makes nobody an owner who is free or has not obtained the lock. -/
theorem Owned.call (ho : m.Owned obtained) (h : m.Inv) (serving : Serving m.kernel p)
    (legal : c.Legal m.kernel) (hs : Served m.kernel p c r K) :
    (m.after p c r K).Owned (obtainedNow obtained m (.call p c r) (m.after p c r K)) := by
  have hkernel : (m.after p c r K).kernel = K := by cases r <;> rfl
  have kept : K.monitor.owner = m.kernel.monitor.owner → K.list = m.kernel.list →
      (m.after p c r K).Owned (obtainedNow obtained m (.call p c r) (m.after p c r K)) :=
    fun hown hl => ho.keep (by rw [hkernel, hown])
      (by rw [hkernel, KState.sched_congr hl]) fun _ _ => .inl
  cases hs with
  | @call c d r K hd hu hp =>
      intro k q hq
      rw [hkernel] at hq ⊢
      rw [hp.free_eq]
      have hcase := call_cases m.kernel.monitor p d
      rw [hp.call] at hcase
      rcases hcase.new_owner hq with hold | ⟨rfl, rfl, hr⟩ | ⟨hown, hsrc⟩
      · obtain ⟨hf, hobt⟩ := ho k q hold
        exact ⟨hf, .inl hobt⟩
      · obtain rfl := meaning_acquire hd
        cases r with
        | asleep i => cases hr
        | returned v =>
            obtain rfl : v = syncSuccess := by simpa [Ret.outcome] using hr
            exact ⟨h.table.not_free (.inl serving.mem_run), .inr .acquired⟩
      · by_cases hqp : q = p
        · obtain ⟨hf, hobt⟩ := ho k q (hqp ▸ hown)
          exact ⟨hf, .inl hobt⟩
        · refine ⟨?_, .inr (.handed (Ne.symm hqp) (KState.owner_pid hown) ?_)⟩
          · rcases hsrc with ⟨w, hw⟩ | rfl
            · exact h.table.not_free (.inr (h.queued w q hw))
            · obtain rfl := meaning_transfer hd
              exact fun hf => legal.2 (h.table.status .freepcbs _ rfl q hf)
          · rw [hkernel]
            exact KState.owner_pid hq
  | refused hc => exact kept rfl rfl
  | newSem hu hc hm hlocks hconds => exact kept (by rw [hm]; rfl) hc.list
  | @newLock j K hu hc hm hother hpid hconds =>
      intro k q hq
      rw [hkernel, hm] at hq
      by_cases e : k = j
      · rw [e, Monitor.setOwner_self] at hq
        cases hq
      · rw [Monitor.setOwner_of_ne _ _ _ _ e] at hq
        obtain ⟨hf, hobt⟩ := ho k q hq
        exact ⟨by rw [hkernel, KState.sched_congr hc.list]; exact hf, .inl hobt⟩
  | newCond hu hk hc hm hlocks hconds => exact kept (by rw [hm]) hc.list

/-- Every step keeps the owners alive, as long as no owner exits. -/
theorem Owned.step (ho : m.Owned obtained) (h : m.Inv) (hs : m.Step e m')
    (he : e.OwnsNothing m) : m'.Owned (obtainedNow obtained m e m') := by
  cases hs with
  | tick hs =>
      obtain ⟨p, rest, -, hm, hs', -⟩ := h.tick_moves hs
      exact ho.keep (congrArg Monitor.owner hm.monitor)
        ((congrArg Sched.free hs' :)) fun _ _ => .inl
  | @fork a r K hs =>
      obtain ⟨p, rest, hfree, hm, ⟨rfl, hs', -⟩ | ⟨rfl, hs', -⟩⟩ := h.fork_moves hs
      · apply ho.moved (congrArg Monitor.owner hm.monitor)
        intro k q hq hf
        rw [hfree] at hf
        refine ⟨?_, fun ho => ⟨ho, fun e => hf ?_⟩⟩
        · change q ∉ K.sched.free
          rw [hs']
          exact fun hc => hf (List.mem_cons_of_mem _ hc)
        · rw [Fin.ext (Int.ofNat.inj e)]
          exact List.mem_cons_self
      · apply ho.moved (congrArg Monitor.owner hm.monitor)
        intro k q hq hf
        refine ⟨?_, fun ho => ⟨ho, by omega⟩⟩
        change q ∉ K.sched.free
        rw [hs']
        rw [hfree] at hf
        simpa [or_comm] using hf
  | @exit p K active hs =>
      obtain ⟨q, rest, -, hm, hs', -⟩ := h.exit_moves active.1 hs
      apply ho.moved (congrArg Monitor.owner hm.monitor)
      intro k q hq hf
      refine ⟨?_, .inl⟩
      change q ∉ K.sched.free
      rw [hs']
      intro hc
      rcases List.mem_append.mp hc with hc | hc
      · exact hf hc
      · have hk := KState.owner_pid hq
        rw [List.mem_singleton.mp hc] at hk
        exact he k (KState.owner_inuse hq) hk
  | sleep active hs =>
      obtain ⟨q, rest, -, hm, hs', -⟩ := h.sleep_moves active.1 hs
      exact ho.keep (congrArg Monitor.owner hm.monitor)
        ((congrArg Sched.free hs' :)) fun _ _ => .inl
  | wakeup running outside waiting hs =>
      obtain ⟨hm, hs', -⟩ := h.wakeup_moves ((h.waiting_iff _).mp waiting) hs
      exact ho.keep (congrArg Monitor.owner hm.monitor)
        ((congrArg Sched.free hs' :)) fun _ _ => .inl
  | @call p c level r K active legal hs =>
      obtain ⟨h₀, -⟩ := h.setLevel level
      have ho₀ : (m.setKernel (m.kernel.setIntrs level)).Owned obtained :=
        ho.keep (congrArg Monitor.owner (KState.setIntrs_monitor ..))
          (congrArg Sched.free (KState.setIntrs_sched ..)) fun _ _ => id
      have legal₀ : c.Legal (m.kernel.setIntrs level) := by cases c <;> exact legal
      have hafter : (m.setKernel (m.kernel.setIntrs level)).after p c r K = m.after p c r K := by
        cases r <;> rfl
      have := ho₀.call h₀ ((h.serving active.1).setIntrs level) legal₀
        (h.call_served active legal hs).1
      rw [hafter] at this
      exact this
  | resume current pending hs =>
      obtain ⟨rfl, rfl⟩ := Prod.mk.inj (Except.ok.inj (show
        Except.ok (syncSuccess, m.kernel.setIntrs _) = _ from hs))
      exact ho.keep (congrArg Monitor.owner (KState.setIntrs_monitor ..))
        (congrArg Sched.free (KState.setIntrs_sched ..)) fun _ _ => .inl

end Machine

theorem reachable_owned {s : Machine × (PcbPtr → LockPtr → Prop)}
    (h : carefulSystem.Reachable s) : s.1.Owned s.2 := by
  induction h with
  | init h =>
      intro k p hk
      have ho := (Machine.Init.blank h.1).2.owner k
      cases ho.symm.trans hk
  | @step s e s' tail hs ih =>
      rw [hs.2]
      exact ih.step (reachable_inv tail.unobserved.unrestricted) hs.1.1 hs.1.2

/-- As long as no process exits that owns a lock, the owners of locks are live processes that
obtained them. -/
theorem owners_live {obtained : PcbPtr → LockPtr → Prop}
    (h : carefulSystem.Reachable (m, obtained)) : m.OwnersLive obtained :=
  (reachable_owned h).live (reachable_inv h.unobserved.unrestricted)

theorem owners_live_acquired : ∃ (m : Machine) (obtained : PcbPtr → LockPtr → Prop) (p : PcbPtr)
    (k : LockPtr), m.OwnersLive obtained ∧ (m.kernel.locks k).pid = p.val ∧ obtained p k := by
  obtain ⟨m, m', p, q, k, c, h, hs, hk, h', -, ho⟩ := exists_acquire
  have plain : ∀ (m : Machine) (e : KEvent), e.Plain → e.OwnsNothing m := fun m e he => by
    cases e with
    | exit p => exact False.elim he
    | _ => trivial
  obtain ⟨obtained, hr⟩ := (h.reach.weaken plain).observed (fun _ _ => False) obtainedNow
  have hr' : carefulSystem.Reachable (m', obtainedNow obtained m
      (.call p (.lockAcquire k.val) (.returned syncSuccess)) m') := hr.step ⟨⟨hs, trivial⟩, rfl⟩
  exact ⟨m', _, p, k, owners_live hr', KState.owner_pid ho, .inr .acquired⟩

/-- A process that exits with a lock leaves the lock to a PCB that is free. -/
theorem exit_leaves_lock : ¬ ∀ (m : Machine) (obtained : PcbPtr → LockPtr → Prop),
    ownerSystem.Reachable (m, obtained) → m.OwnersLive obtained := by
  intro hall
  obtain ⟨-, m, p, q, k, c, -, -, -, h, -, ho⟩ := exists_acquire
  obtain ⟨K, e, hm, hs', -⟩ := h.inv.exit_runs h.run
  have exits : m.Step (.exit p) (m.setKernel K) := .exit h.active e
  obtain ⟨obtained, hr⟩ := (h.reach.unrestricted.step exits).observed (fun _ _ => False)
    obtainedNow
  have hfree : p ∈ K.sched.free := by simp [hs']
  have hk : (K.locks k).inuse = true := by rw [hm.locks]; exact KState.owner_inuse ho
  have hpid : (K.locks k).pid = p.val := by rw [hm.locks]; exact KState.owner_pid ho
  obtain ⟨p', hp', hlive, -⟩ := hall _ obtained hr k hk (by
    change 0 ≤ (K.locks k).pid
    omega)
  have hp : p' = p := Fin.ext (Int.ofNat.inj (hp'.symm.trans hpid))
  have hst : K.statusOf p = processStatusFree := hm.table.status .freepcbs _ rfl p hfree
  rw [hp] at hlive
  change K.statusOf p = _ ∨ K.statusOf p = _ at hlive
  rw [hst] at hlive
  exact absurd hlive (by decide)

end DlxOs.Kernel
