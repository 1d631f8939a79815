import DlxOs.Kernel.Progress

/-!
# Handles that processes pass

A handle that names no entry of its table in use is refused, and no access is
outside a table. `CondCreate` is the exception: it reads the table of locks at
its handle before anything has checked the handle.
-/

namespace DlxOs.Kernel

open Queue Monitors Transition

variable {m m' : Machine} {K K' : KState} {p : PcbPtr} {k : LockPtr} {e : KEvent} {r : Ret}
  {handle : Int} {created : LockPtr → Prop}

/-- The functions of `synch.c` that a process calls with a handle. -/
inductive Entry
  | semHandleWait
  | semHandleSignal
  | lockHandleAcquire
  | lockHandleRelease
  | condCreate
  | condHandleWait
  | condHandleSignal

def Entry.request (handle : Int) : Entry → Syscall
  | .semHandleWait => .semWait handle
  | .semHandleSignal => .semSignal handle
  | .lockHandleAcquire => .lockAcquire handle
  | .lockHandleRelease => .lockRelease handle
  | .condCreate => .condCreate handle
  | .condHandleWait => .condWait handle
  | .condHandleSignal => .condSignal handle

/-- The entry of its table that a handle names. -/
def Entry.object (handle : Int) : Entry → Option WaitObject
  | .semHandleWait | .semHandleSignal => (index maxSems handle).map .sem
  | .lockHandleAcquire | .lockHandleRelease | .condCreate => (index maxLocks handle).map .lock
  | .condHandleWait | .condHandleSignal => (index maxConds handle).map .cond

/-- The locks that `LockCreate` has returned so far. -/
def createdNow (created : LockPtr → Prop) (_ : Machine) (e : KEvent) (_ : Machine) :
    LockPtr → Prop :=
  fun k => created k ∨ ∃ p, e = .call p .lockCreate (.returned k.val)

/-- What a call with any handle does when handles are safe. -/
structure HandleSafe (K : KState) (created : LockPtr → Prop) (handle : Int) (f : Entry) : Prop where
  inside : (f.request handle).run.run K ≠ .error .wildAccess
  refused : (∀ w, f.object handle = some w → K.inuse w = false) →
    ∃ v, (f.request handle).run.run K = .ok (.returned v, K) ∧ (v = syncFail ∨ v = invalidCond)
  bound : ∀ r K', (f.request handle).run.run K = .ok (r, K') → ∀ c, (K'.conds c).inuse = true →
    ∃ k : LockPtr, (K'.conds c).lock = k.val ∧ created k

/-- A lock is new for the processes if `LockCreate` has returned it. -/
theorem Machine.meaning_eq_newLock (h : m.meaning e = .newLock k) :
    ∃ p, e = .call p .lockCreate (.returned k.val) := by
  have other : ∀ {α : Type} {o : Option α} {f : α → KMonitorEvent}, (∀ a, f a ≠ .newLock k) →
      (o.map f).getD .idle ≠ .newLock k := by
    intro α o f hf
    cases o with
    | none => simp
    | some a => exact hf a
  cases e with
  | call p c r =>
      cases hc : c.meaning with
      | some d =>
          simp only [Machine.meaning, hc] at h
          split_ifs at h
      | none =>
          simp only [Machine.meaning, hc] at h
          split at h
          · exact absurd h (other (by simp))
          · rename_i v
            cases hi : index maxLocks v with
            | none => simp [hi] at h
            | some j =>
                obtain rfl : j = k := by simpa [hi] using h
                exact ⟨p, by rw [index_eq_some.mp hi]⟩
          · rename_i lock v
            cases hi : index maxConds v with
            | none => simp [hi] at h
            | some b =>
                rw [hi] at h
                exact absurd h (other (by simp))
          · cases h
  | resume p c r => exact absurd h (other (by simp))
  | _ => cases h

/-- The locks in use are those that `LockCreate` has returned. -/
theorem inuse_created {s : Machine × (LockPtr → Prop)}
    (h : (kernelSystem.observe (fun _ => False) createdNow).Reachable s) :
    ∀ k, s.1.kernel.inuse (.lock k) = true → s.2 k := by
  induction h with
  | init h =>
      intro k hk
      have hu := (Machine.Init.blank h.1).1.inuse (.lock k)
      rw [hu] at hk
      cases hk
  | @step s e s' tail hs ih =>
      intro k hk
      have hstep := ((reachable_inv tail.unobserved).step hs.1).2
      rw [hs.2]
      rcases hstep.inuse_lock hk with hold | hnew
      · exact .inl (ih k hold)
      · exact .inr (Machine.meaning_eq_newLock hnew)

/-- A handle is refused at once, or it names the object of a call. -/
theorem Entry.outside_or_named {f : Entry} (hf : f ≠ .condCreate) (handle : Int) (K : KState) :
    (f.object handle = none ∧
      (f.request handle).run.run K = .ok (.returned syncFail, K)) ∨
    ∃ d, (f.request handle).meaning = some d ∧ f.object handle = some d.target := by
  cases f with
  | semHandleWait =>
      cases hi : index maxSems handle with
      | none => exact .inl ⟨by simp [object, hi], handled_outside hi⟩
      | some s => exact .inr ⟨.semWait s, by simp [request, Syscall.meaning, hi],
          by simp [object, hi, Call.target]⟩
  | semHandleSignal =>
      cases hi : index maxSems handle with
      | none => exact .inl ⟨by simp [object, hi], handled_outside hi⟩
      | some s => exact .inr ⟨.semSignal s, by simp [request, Syscall.meaning, hi],
          by simp [object, hi, Call.target]⟩
  | lockHandleAcquire =>
      cases hi : index maxLocks handle with
      | none => exact .inl ⟨by simp [object, hi], handled_outside hi⟩
      | some k => exact .inr ⟨.acquire k, by simp [request, Syscall.meaning, hi],
          by simp [object, hi, Call.target]⟩
  | lockHandleRelease =>
      cases hi : index maxLocks handle with
      | none => exact .inl ⟨by simp [object, hi], handled_outside hi⟩
      | some k => exact .inr ⟨.release k, by simp [request, Syscall.meaning, hi],
          by simp [object, hi, Call.target]⟩
  | condCreate => exact absurd rfl hf
  | condHandleWait =>
      cases hi : index maxConds handle with
      | none => exact .inl ⟨by simp [object, hi], handled_outside hi⟩
      | some c => exact .inr ⟨.wait c, by simp [request, Syscall.meaning, hi],
          by simp [object, hi, Call.target]⟩
  | condHandleSignal =>
      cases hi : index maxConds handle with
      | none => exact .inl ⟨by simp [object, hi], handled_outside hi⟩
      | some c => exact .inr ⟨.signal c, by simp [request, Syscall.meaning, hi],
          by simp [object, hi, Call.target]⟩

/-- No call with a handle is one of `LockTransfer`, or creates a lock. -/
theorem Entry.legal (f : Entry) (handle : Int) (K : KState) : (f.request handle).Legal K := by
  cases f <;> trivial

/-- `CondCreate` on a handle within the table of locks. -/
theorem condCreate_inside (h : Table K) (hk : 0 ≤ handle ∧ handle < maxLocks) :
    ∃ v K', (Syscall.condCreate handle).run.run K = .ok (.returned v, K') ∧
      ((∀ k : LockPtr, handle = k.val → K.inuse (.lock k) = false) → v = invalidCond ∧ K' = K) := by
  have hi : index maxLocks handle ≠ none := by
    rw [index, dif_pos hk]
    exact Option.some_ne_none _
  obtain ⟨hn, -⟩ | ⟨v, K', e, hcases⟩ := condCreate_spec h handle
  · exact absurd hn hi
  · refine ⟨v, K', ?_, fun hunused => ?_⟩
    · rw [Syscall.run, run_bind_ok e]
      rfl
    · rcases hcases with ⟨hv, hK, -⟩ | ⟨c, k, -, hk, -, hu, -⟩
      · exact ⟨hv, hK⟩
      · rw [hunused k hk] at hu
        cases hu

/-- A handle that names no entry in use is refused. -/
theorem Entry.run_refused {f : Entry} (h : Table K)
    (hf : f = .condCreate → 0 ≤ handle ∧ handle < maxLocks)
    (hu : ∀ w, f.object handle = some w → K.inuse w = false) :
    ∃ v, (f.request handle).run.run K = .ok (.returned v, K) ∧
      (v = syncFail ∨ v = invalidCond) := by
  by_cases hc : f = .condCreate
  · subst hc
    obtain ⟨v, K', e, hv⟩ := condCreate_inside h (hf rfl)
    obtain ⟨rfl, rfl⟩ := hv fun k hk => hu _ (by
      rw [hk, object, index_val]
      rfl)
    exact ⟨_, e, .inr rfl⟩
  · rcases f.outside_or_named hc handle K with ⟨-, e⟩ | ⟨d, hd, ho⟩
    · exact ⟨_, e, .inl rfl⟩
    · exact ⟨_, Syscall.run_refused hd (hu _ ho) (f.legal handle K), .inl rfl⟩

/-- A call with a handle accesses the tables inside their bounds. -/
theorem Entry.run_inside {f : Entry} (h : Serving K p)
    (hf : f = .condCreate → 0 ≤ handle ∧ handle < maxLocks) :
    (f.request handle).run.run K ≠ .error .wildAccess := by
  intro hw
  by_cases hc : f = .condCreate
  · subst hc
    obtain ⟨v, K', e, -⟩ := condCreate_inside h.table (hf rfl)
    cases hw.symm.trans e
  · rcases f.outside_or_named hc handle K with ⟨-, e⟩ | ⟨d, hd, ho⟩
    · cases hw.symm.trans e
    · cases hu : K.inuse d.target with
      | false => cases hw.symm.trans (Syscall.run_refused hd hu (f.legal handle K))
      | true =>
          rcases Syscall.run_calls h hd hu with ⟨e, -⟩ | ⟨r, K', e, -⟩
          · exact e.not_wild hw
          · cases hw.symm.trans e

/-- `CondCreate` reads outside the table of locks if its handle is outside. -/
theorem condCreate_wild (hk : ¬ (0 ≤ handle ∧ handle < maxLocks)) :
    (Syscall.condCreate handle).run.run K = .error .wildAccess := by
  rw [Syscall.run, condCreate, lockAt, index, dif_neg hk]
  rfl

/-- In every reachable state, a call with any handle is safe, unless it is `CondCreate` with a
handle outside the table of locks. -/
theorem handles_safe_iff {level : BitVec 4} {f : Entry}
    (h : (kernelSystem.observe (fun _ => False) createdNow).Reachable (m, created))
    (active : m.Active p) :
    HandleSafe (m.kernel.setIntrs level) created handle f ↔
      (f = .condCreate → 0 ≤ handle ∧ handle < maxLocks) := by
  have hinv := reachable_inv h.unobserved
  have serving := (hinv.serving active.1).setIntrs level
  constructor
  · rintro hs rfl
    by_contra hout
    exact hs.inside (condCreate_wild hout)
  · intro hf
    refine ⟨f.run_inside serving hf, f.run_refused serving.table hf, fun r K' e c hc => ?_⟩
    let m' := m.after p (f.request handle) r K'
    have hstep : m.Step (.call p (f.request handle) r) m' := .call active (f.legal handle _) e
    have hkernel : m'.kernel = K' := by cases r <;> rfl
    have hr : (kernelSystem.observe (fun _ => False) createdNow).Reachable
        (m', createdNow created m (.call p (f.request handle) r) m') := h.step ⟨hstep, rfl⟩
    obtain ⟨k, hbound, hk⟩ := (hinv.step hstep).1.sane.bounds c (by rwa [hkernel])
    rw [hkernel] at hbound
    refine ⟨k, hbound, ?_⟩
    rcases inuse_created hr k hk with hold | ⟨q, he⟩
    · exact hold
    · cases f <;> cases he

theorem handles_safe_created : ∃ (m : Machine) (created : LockPtr → Prop) (k : LockPtr),
    created k ∧ HandleSafe (m.kernel.setIntrs 0) created k.val .condCreate := by
  obtain ⟨m, p, q, k, c, h, hk, -⟩ := exists_lock_scene
  obtain ⟨created, hr⟩ := h.reach.unrestricted.observed (fun _ => False) createdNow
  exact ⟨m, created, k, inuse_created hr k hk,
    (handles_safe_iff hr h.active).mpr fun _ => ⟨by omega, by exact_mod_cast k.isLt⟩⟩

/-- A process that calls `CondCreate` with handle 64 makes it read behind the table of locks. -/
theorem condCreate_reads_outside : ¬ ∀ (m : Machine) (created : LockPtr → Prop) (p : PcbPtr)
    (level : BitVec 4) (handle : Int) (f : Entry),
    (kernelSystem.observe (fun _ => False) createdNow).Reachable (m, created) → m.Active p →
      HandleSafe (m.kernel.setIntrs level) created handle f := by
  intro hall
  obtain ⟨m, p, q, h, -⟩ := exists_scene
  obtain ⟨created, hr⟩ := h.reach.unrestricted.observed (fun _ => False) createdNow
  exact (hall m created p 0 64 .condCreate hr h.active).inside (condCreate_wild (by decide))

end DlxOs.Kernel
