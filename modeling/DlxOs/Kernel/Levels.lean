import DlxOs.Kernel.Progress

/-!
# Interrupt levels and failed calls

From every state of the kernel, a function of `synch.c` leaves the interrupt
level as it found it, also when it sleeps before it returns, and a failed call
changes no table and no queue. The exceptions are `LockRelease` and
`LockTransfer` by a process that does not own the lock: they return with the
interrupts disabled.
-/

namespace DlxOs.Kernel

open Queue Monitors

/-- A call of a function of `synch.c`, on objects and handles within the tables. -/
inductive Primitive
  | semCreate (count : Int)
  | semWait (s : SemPtr)
  | semSignal (s : SemPtr)
  | lockCreate
  | lockAcquire (k : LockPtr)
  | lockRelease (k : LockPtr)
  | lockTransfer (k : LockPtr) (pcb : PcbPtr)
  | condCreate (k : LockPtr)
  | condWait (c : CondPtr)
  | condSignal (c : CondPtr)

def Primitive.run : Primitive → KernelM Ret
  | .semCreate count => return .returned (← Kernel.semCreate count)
  | .semWait s => Kernel.semWait s
  | .semSignal s => Kernel.semSignal s
  | .lockCreate => return .returned (← Kernel.lockCreate)
  | .lockAcquire k => Kernel.lockAcquire k
  | .lockRelease k => Kernel.lockRelease k
  | .lockTransfer k pcb => Kernel.lockTransfer k pcb
  | .condCreate k => return .returned (← Kernel.condCreate k.val)
  | .condWait c => Kernel.condWait c
  | .condSignal c => Kernel.condSignal c

/-- The objects, the queues and the statuses of processes are the same. -/
structure KState.SameTables (K K' : KState) : Prop where
  sems : K'.sems = K.sems
  locks : K'.locks = K.locks
  conds : K'.conds = K.conds
  heap : K'.heap = K.heap
  pcbs : K'.pcbs = K.pcbs

/-- A call that began in state `K` returns in state `K'` after no action since `X` but its own:
the interrupt level is restored, and a failure has changed nothing. -/
structure Restored (K X : KState) (v : Int) (K' : KState) : Prop where
  level : K'.intrs = K.intrs
  failed : v = syncFail ∨ v = invalidCond → X.SameTables K'

/-- What a call that began in state `K` is to leave behind, at once or after its sleep. -/
def Faithful (K : KState) (K' : KState) : Ret → Prop
  | .returned v => Restored K K v K'
  | .asleep i => ∀ X v X', (wakeReturn i).run X = .ok (v, X') → Restored K X v X'

/-- From state `K` the call leaves behind what it should, whenever it ends. -/
def Primitive.KeepsFaith (c : Primitive) (K : KState) : Prop :=
  ∀ r K', c.run.run K = .ok (r, K') → Faithful K K' r

/-- The current process does not own the lock that it releases or transfers. -/
def Primitive.NotOwner (K : KState) : Primitive → Prop
  | .lockRelease k => ∃ p, K.currentPCB = some p ∧ (K.locks k).pid ≠ p.val
  | .lockTransfer k _ => ∃ p, K.currentPCB = some p ∧ (K.locks k).pid ≠ p.val
  | _ => False

variable {K K₁ K' : KState} {α β : Type} {p : PcbPtr}

/-- What returns after two actions has returned from each of them. -/
theorem run_bind_inv {x : KernelM α} {f : α → KernelM β} {b : β}
    (h : (x >>= f).run K = .ok (b, K')) :
    ∃ a K₁, x.run K = .ok (a, K₁) ∧ (f a).run K₁ = .ok (b, K') := by
  cases hx : x.run K with
  | error e =>
      rw [StateT.run_bind, hx] at h
      cases h
  | ok s =>
      obtain ⟨a, K₁⟩ := s
      rw [run_bind_ok hx] at h
      exact ⟨a, K₁, rfl, h⟩

/-- The rest of a call that ends in one of the ways in which a call is to end. -/
def Settles (K : KState) (f : KernelM Ret) : Prop :=
  ∀ K₁ r K', f.run K₁ = .ok (r, K') → Faithful K K' r

namespace Settles

theorem bind {x : KernelM α} {f : α → KernelM Ret} (h : ∀ a, Settles K (f a)) :
    Settles K (x >>= f) := by
  intro K₁ r K' e
  obtain ⟨a, K₂, -, e'⟩ := run_bind_inv e
  exact h a K₂ r K' e'

/-- The level that was in force is restored before a success is returned. -/
theorem success : Settles K (do restoreIntrs K.intrs; return .returned syncSuccess) := by
  intro K₁ r K' e
  cases e
  refine ⟨rfl, fun hf => ?_⟩
  simp [syncSuccess, syncFail, invalidCond] at hf

/-- The level that was in force is kept over a sleep. -/
theorem asleep : Settles K (return .asleep K.intrs) := by
  intro K₁ r K' e
  cases e
  intro X v X' e
  cases e
  refine ⟨rfl, fun hf => ?_⟩
  simp [syncSuccess, syncFail, invalidCond] at hf

/-- A call whose actions after the interrupts are disabled settle it. -/
theorem keeps {f : BitVec 4 → KernelM Ret} (h : Settles K (f K.intrs)) {r : Ret}
    (e : (disableIntrs >>= f).run K = .ok (r, K')) : Faithful K K' r := by
  rw [run_bind_ok disableIntrs_run] at e
  exact h _ r K' e

end Settles

theorem getCurrentPid_run (hc : K.currentPCB = some p) :
    getCurrentPid.run K = .ok ((p.val : Int), K) := by
  rw [getCurrentPid, run_bind_ok (current_run hc)]
  rfl

/-- Who asks for the current pid and gets an answer has a current process. -/
theorem getCurrentPid_inv {v : Int} (h : getCurrentPid.run K = .ok (v, K')) :
    ∃ p, K.currentPCB = some p ∧ v = p.val ∧ K' = K := by
  cases hc : K.currentPCB with
  | none =>
      rw [getCurrentPid, StateT.run_bind, show current.run K = .error .nullAccess by
        simp [current, hc]; rfl] at h
      cases h
  | some p =>
      rw [getCurrentPid_run hc] at h
      cases h
      exact ⟨p, rfl, rfl, rfl⟩

/-- The check whether the current process owns a lock. -/
theorem ownerCheck_inv {k : LockPtr} {refuse rest : KernelM Ret} {X : KState} {r : Ret}
    (h : (do
      let pid ← getCurrentPid
      if ((← get).locks k).pid ≠ pid then refuse else rest).run X = .ok (r, K')) :
    ∃ p, X.currentPCB = some p ∧
      ((X.locks k).pid ≠ p.val ∧ refuse.run X = .ok (r, K') ∨
        (X.locks k).pid = p.val ∧ rest.run X = .ok (r, K')) := by
  obtain ⟨v, X', e, h'⟩ := run_bind_inv h
  obtain ⟨p, hc, rfl, rfl⟩ := getCurrentPid_inv e
  rw [get_bind_run] at h'
  refine ⟨p, hc, ?_⟩
  by_cases hp : (X'.locks k).pid = p.val
  · rw [if_neg (not_not.mpr hp)] at h'
    exact .inr ⟨hp, h'⟩
  · rw [if_pos hp] at h'
    exact .inl ⟨hp, h'⟩

theorem lockAt_inv {handle : Int} {k : LockPtr} (h : (lockAt handle).run K = .ok (k, K')) :
    K' = K := by
  rw [lockAt] at h
  split at h
  · cases h
  · cases h
    rfl

theorem checked_inv {op : Heap KQueue PcbPtr → Int × Heap KQueue PcbPtr} {t : String}
    (h : (checked op t).run K = .ok ((), K')) : K' = K.setHeap (op K.heap).2 := by
  rw [checked, get_bind_run] at h
  obtain ⟨_, K₁, e, h'⟩ := run_bind_inv h
  cases e
  split at h'
  · cases h'
  · cases h'
    rfl

/-! ### The functions -/

theorem semWait_settles (s : SemPtr) {r : Ret} (e : (semWait s).run K = .ok (r, K')) :
    Faithful K K' r := by
  refine Settles.keeps (.bind fun K₁ => ?_) e
  by_cases hc : (K₁.sems s).count ≤ 0
  · rw [if_pos hc]
    exact .bind fun _ => .bind fun _ => .asleep
  · rw [if_neg hc]
    exact .bind fun _ => .success

theorem semSignal_settles (s : SemPtr) {r : Ret} (e : (semSignal s).run K = .ok (r, K')) :
    Faithful K K' r := by
  refine Settles.keeps (.bind fun _ => .bind fun K₁ => ?_) e
  split
  · refine .bind fun b => ?_
    split
    · exact .bind fun _ => .bind fun _ => .bind fun _ => .success
    · exact .success
  · exact .success

theorem lockAcquire_settles (k : LockPtr) {r : Ret} (e : (lockAcquire k).run K = .ok (r, K')) :
    Faithful K K' r := by
  refine Settles.keeps (.bind fun pid => .bind fun K₁ => ?_) e
  split
  · exact .success
  · split
    · exact .bind fun _ => .bind fun _ => .asleep
    · exact .bind fun _ => .success

theorem lockRelease_refused (k : LockPtr) (hc : K.currentPCB = some p)
    (hk : (K.locks k).pid ≠ p.val) :
    (lockRelease k).run K = .ok (.returned syncFail, K.setIntrs 0xf) := by
  have hc' : (K.setIntrs 0xf).currentPCB = some p := hc
  have hk' : ((K.setIntrs 0xf).locks k).pid ≠ p.val := hk
  rw [lockRelease, run_bind_ok disableIntrs_run, run_bind_ok (getCurrentPid_run hc'), get_bind_run,
    if_pos hk']
  rfl

theorem lockRelease_settles (k : LockPtr) {r : Ret} (hk : ¬ (Primitive.lockRelease k).NotOwner K)
    (e : (lockRelease k).run K = .ok (r, K')) : Faithful K K' r := by
  rw [lockRelease, run_bind_ok disableIntrs_run] at e
  obtain ⟨p, hc, ⟨hp, -⟩ | ⟨-, e⟩⟩ := ownerCheck_inv e
  · exact absurd ⟨p, hc, hp⟩ hk
  · exact (Settles.bind fun _ => .success) _ r K' e

theorem lockTransfer_refused (k : LockPtr) (pcb : PcbPtr) (hc : K.currentPCB = some p)
    (hk : (K.locks k).pid ≠ p.val) :
    (lockTransfer k pcb).run K = .ok (.returned syncFail, K.setIntrs 0xf) := by
  have hc' : (K.setIntrs 0xf).currentPCB = some p := hc
  have hk' : ((K.setIntrs 0xf).locks k).pid ≠ p.val := hk
  rw [lockTransfer, run_bind_ok disableIntrs_run, run_bind_ok (getCurrentPid_run hc'),
    get_bind_run, if_pos hk']
  rfl

theorem lockTransfer_settles (k : LockPtr) (pcb : PcbPtr) {r : Ret}
    (hk : ¬ (Primitive.lockTransfer k pcb).NotOwner K)
    (e : (lockTransfer k pcb).run K = .ok (r, K')) : Faithful K K' r := by
  rw [lockTransfer, run_bind_ok disableIntrs_run] at e
  obtain ⟨p, hc, ⟨hp, -⟩ | ⟨-, e⟩⟩ := ownerCheck_inv e
  · exact absurd ⟨p, hc, hp⟩ hk
  · exact (Settles.bind fun _ => .bind fun _ => .bind fun _ => .success) _ r K' e

/-- A failure that changes nothing. -/
theorem faithful_unchanged {v : Int} : Faithful K K (.returned v) :=
  ⟨rfl, fun _ => ⟨rfl, rfl, rfl, rfl, rfl⟩⟩

/-- A refusal after a message. -/
theorem faithful_refusal {t : String} {r : Ret}
    (e : (do printf t; restoreIntrs K.intrs; return .returned syncFail : KernelM Ret).run
      (K.setIntrs 0xf) = .ok (r, K')) : Faithful K K' r := by
  cases e
  exact ⟨rfl, fun _ => ⟨rfl, rfl, rfl, rfl, rfl⟩⟩

theorem condWait_settles (c : CondPtr) {r : Ret} (e : (condWait c).run K = .ok (r, K')) :
    Faithful K K' r := by
  rw [condWait, run_bind_ok disableIntrs_run, get_bind_run] at e
  obtain ⟨k, X, hk, e⟩ := run_bind_inv e
  obtain rfl := lockAt_inv hk
  obtain ⟨p, hc, ⟨-, e⟩ | ⟨-, e⟩⟩ := ownerCheck_inv e
  · exact faithful_refusal e
  · exact (Settles.bind fun _ => .bind fun _ => .bind fun _ => .asleep) _ r K' e

theorem condSignal_settles (c : CondPtr) {r : Ret} (e : (condSignal c).run K = .ok (r, K')) :
    Faithful K K' r := by
  rw [condSignal, run_bind_ok disableIntrs_run, get_bind_run] at e
  obtain ⟨k, X, hk, e⟩ := run_bind_inv e
  obtain rfl := lockAt_inv hk
  obtain ⟨p, hc, ⟨-, e⟩ | ⟨-, e⟩⟩ := ownerCheck_inv e
  · exact faithful_refusal e
  · refine (Settles.bind fun b => ?_) _ r K' e
    split
    · exact .bind fun _ => .bind fun _ => .bind fun _ => .bind fun _ => .bind fun _ => .asleep
    · exact .success

/-- A handle is no failure. -/
theorem faithful_created {X : KState} (hX : X.intrs = K.intrs) {i : Nat} : Faithful K X
    (.returned i) := by
  refine ⟨hX, fun hf => ?_⟩
  simp only [syncFail, invalidCond] at hf
  omega

theorem semInit_inv {s : SemPtr} {n r : Int} (h : (semInit s n).run K = .ok (r, K')) :
    r = syncSuccess ∧ K'.intrs = K.intrs := by
  rw [semInit] at h
  obtain ⟨_, X, e, h'⟩ := run_bind_inv h
  obtain rfl := checked_inv e
  cases h'
  exact ⟨rfl, rfl⟩

theorem lockInit_inv {k : LockPtr} {r : Int} (h : (lockInit k).run K = .ok (r, K')) :
    r = syncSuccess ∧ K'.intrs = K.intrs := by
  rw [lockInit] at h
  obtain ⟨_, X, e, h'⟩ := run_bind_inv h
  obtain rfl := checked_inv e
  cases h'
  exact ⟨rfl, rfl⟩

theorem semCreate_settles (n : Int) {r : Ret}
    (e : (Primitive.semCreate n).run.run K = .ok (r, K')) : Faithful K K' r := by
  obtain ⟨v, X, e₀, eret⟩ := run_bind_inv e
  cases eret
  rw [semCreate, run_bind_ok disableIntrs_run, get_bind_run] at e₀
  split at e₀
  · cases e₀
    exact faithful_unchanged
  · obtain ⟨_, X₁, e₁, f₁⟩ := run_bind_inv e₀
    obtain ⟨_, X₂, e₂, f₂⟩ := run_bind_inv f₁
    obtain ⟨_, X₃, e₃, f₃⟩ := run_bind_inv f₂
    obtain ⟨rfl, hX⟩ := semInit_inv e₃
    cases e₁
    cases e₂
    cases f₃
    have hlevel : K'.intrs = K.intrs := hX
    exact faithful_created hlevel

theorem lockCreate_settles {r : Ret} (e : Primitive.lockCreate.run.run K = .ok (r, K')) :
    Faithful K K' r := by
  obtain ⟨v, X, e₀, eret⟩ := run_bind_inv e
  cases eret
  rw [lockCreate, run_bind_ok disableIntrs_run, get_bind_run] at e₀
  split at e₀
  · cases e₀
    exact faithful_unchanged
  · obtain ⟨_, X₁, e₁, f₁⟩ := run_bind_inv e₀
    obtain ⟨_, X₂, e₂, f₂⟩ := run_bind_inv f₁
    obtain ⟨_, X₃, e₃, f₃⟩ := run_bind_inv f₂
    obtain ⟨rfl, hX⟩ := lockInit_inv e₃
    cases e₁
    cases e₂
    cases f₃
    have hlevel : K'.intrs = K.intrs := hX
    exact faithful_created hlevel

theorem condCreate_settles (k : LockPtr) {r : Ret}
    (e : (Primitive.condCreate k).run.run K = .ok (r, K')) : Faithful K K' r := by
  obtain ⟨v, X, e', eret⟩ := run_bind_inv e
  cases eret
  rw [condCreate] at e'
  obtain ⟨j, X₀, hk, e₀⟩ := run_bind_inv e'
  obtain rfl := lockAt_inv hk
  rw [get_bind_run, condCreateFor] at e₀
  split at e₀
  · cases e₀
    exact faithful_unchanged
  · rw [run_bind_ok disableIntrs_run, get_bind_run] at e₀
    split at e₀
    · cases e₀
      exact faithful_unchanged
    · obtain ⟨_, X₁, e₁, f₁⟩ := run_bind_inv e₀
      obtain ⟨_, X₂, e₂, f₂⟩ := run_bind_inv f₁
      obtain ⟨_, X₃, e₃, f₃⟩ := run_bind_inv f₂
      obtain rfl := checked_inv e₃
      cases e₁
      cases e₂
      cases f₃
      exact faithful_created (by rfl)

/-- A call restores the interrupt level and changes nothing when it fails, unless the caller
releases or transfers a lock of others while interrupts are enabled. -/
theorem calls_keep_faith_iff (K : KState) (c : Primitive) :
    c.KeepsFaith K ↔ ¬ (c.NotOwner K ∧ K.intrs ≠ 0xf) := by
  constructor
  · rintro h ⟨hown, hlevel⟩
    cases c with
    | lockRelease k =>
        obtain ⟨p, hc, hk⟩ := hown
        exact hlevel (h _ _ (lockRelease_refused k hc hk)).level.symm
    | lockTransfer k pcb =>
        obtain ⟨p, hc, hk⟩ := hown
        exact hlevel (h _ _ (lockTransfer_refused k pcb hc hk)).level.symm
    | _ => exact hown
  · intro h r K' e
    cases c with
    | semCreate n => exact semCreate_settles n e
    | semWait s => exact semWait_settles s e
    | semSignal s => exact semSignal_settles s e
    | lockCreate => exact lockCreate_settles e
    | lockAcquire k => exact lockAcquire_settles k e
    | lockRelease k =>
        by_cases hk : (Primitive.lockRelease k).NotOwner K
        · obtain ⟨p, hc, hp⟩ := hk
          have hlevel : K.intrs = 0xf := by_contra fun hl => h ⟨⟨p, hc, hp⟩, hl⟩
          rw [Primitive.run, lockRelease_refused k hc hp] at e
          cases e
          exact ⟨hlevel.symm, fun _ => ⟨rfl, rfl, rfl, rfl, rfl⟩⟩
        · exact lockRelease_settles k hk e
    | lockTransfer k pcb =>
        by_cases hk : (Primitive.lockTransfer k pcb).NotOwner K
        · obtain ⟨p, hc, hp⟩ := hk
          have hlevel : K.intrs = 0xf := by_contra fun hl => h ⟨⟨p, hc, hp⟩, hl⟩
          rw [Primitive.run, lockTransfer_refused k pcb hc hp] at e
          cases e
          exact ⟨hlevel.symm, fun _ => ⟨rfl, rfl, rfl, rfl, rfl⟩⟩
        · exact lockTransfer_settles k pcb hk e
    | condCreate k => exact condCreate_settles k e
    | condWait c => exact condWait_settles c e
    | condSignal c => exact condSignal_settles c e

/-- A process that releases a lock it does not own, with the interrupts enabled, gets them
disabled. -/
theorem release_disables : ¬ ∀ (m : Machine) (p : PcbPtr) (c : Primitive) (level : BitVec 4),
    kernelSystem.Reachable m → m.Active p → c.KeepsFaith (m.kernel.setIntrs level) := by
  intro hall
  obtain ⟨m, p, q, k, -, h, hk, -, ho⟩ := exists_lock_scene
  have hpid : (m.kernel.locks k).pid ≠ p.val := fun e => by
    rw [(Serving.owner_eq_some hk p).mpr e] at ho
    cases ho
  have hfail := hall m p (.lockRelease k) 0 h.reach.unrestricted h.active _ _
    (lockRelease_refused k h.active.1 hpid)
  exact absurd hfail.level (by simp [KState.setIntrs])

end DlxOs.Kernel
