import DlxOs.Kernel.Progress
import DlxOs.Library.Histories

/-!
# Locks of the kernel

Who has got a lock and has not given it up since owns it, also while others are
handed it in their sleep. No lock is free while somebody waits for it, and the
waiting processes become owners in the order in which they blocked.
-/

namespace DlxOs.Kernel

open Queue Monitors Transition

variable {m m' : Machine} {K : KState} {p q : PcbPtr} {k : LockPtr} {e : KEvent}

/-- The event is a call of `LockTransfer`. -/
def KEvent.IsTransfer : KEvent → Prop
  | .call _ (.lockTransfer _ _) _ => True
  | _ => False

/-- A step is a call for the processes if it is the call of a primitive on an object in use. -/
theorem Machine.meaning_eq_call {d : KCall} {o : Outcome} (h : m.meaning e = .call p d o) :
    ∃ c r, e = .call p c r ∧ c.meaning = some d ∧ m.kernel.inuse d.target = true ∧
      o = r.outcome := by
  have created : ∀ {α : Type} {o' : Option α} {f : α → KMonitorEvent}, (∀ a, f a ≠ .call p d o) →
      (o'.map f).getD .idle ≠ .call p d o := by
    intro α o' f hf
    cases o' with
    | none => simp
    | some a => exact hf a
  cases e with
  | call p' c r =>
      cases hc : c.meaning with
      | some d' =>
          simp only [Machine.meaning, hc] at h
          split_ifs at h with hu
          cases h
          exact ⟨c, r, rfl, hc, hu, rfl⟩
      | none =>
          simp only [Machine.meaning, hc] at h
          split at h
          · exact absurd h (created (by simp))
          · exact absurd h (created (by simp))
          · rename_i lock v
            cases hi : index maxConds v with
            | none => simp [hi] at h
            | some b =>
                rw [hi] at h
                exact absurd h (created (by simp))
          · cases h
  | resume p' c r => exact absurd h (created (by simp))
  | _ => cases h

/-- Only a call of `LockTransfer` is a transfer for the processes. -/
theorem Machine.meaning_isTransfer (h : (m.meaning e).IsTransfer) : e.IsTransfer := by
  generalize hm : m.meaning e = e' at h
  cases e' with
  | call p d o =>
      cases d with
      | transfer k q =>
          obtain ⟨c, r, rfl, hc, -⟩ := Machine.meaning_eq_call hm
          cases c with
          | lockTransfer k q => trivial
          | semWait s => simp [Syscall.meaning] at hc
          | semSignal s => simp [Syscall.meaning] at hc
          | lockAcquire k => simp [Syscall.meaning] at hc
          | lockRelease k => simp [Syscall.meaning] at hc
          | condWait c => simp [Syscall.meaning] at hc
          | condSignal c => simp [Syscall.meaning] at hc
          | _ => cases hc
      | _ => cases h
  | _ => cases h

theorem KState.owner_pid (h : K.monitor.owner k = some p) : (K.locks k).pid = p.val := by
  simp only [KState.monitor] at h
  split_ifs at h
  exact index_eq_some.mp h

/-! ### Mutual exclusion -/

/-- Who holds which lock, as the processes know it from the results of their calls. -/
def heldNow (held : PcbPtr → LockPtr → Prop) (m : Machine) (e : KEvent) (_ : Machine) :
    PcbPtr → LockPtr → Prop :=
  heldAfter m.kernel.monitor.bound held (m.meaning e)

/-- The kernel without `LockTransfer`, which no trap reaches, and with the locks held. -/
def lockSystem : System (Machine × (PcbPtr → LockPtr → Prop)) KEvent :=
  (kernelSystem.restrict fun _ e => ¬ e.IsTransfer).observe (fun _ _ => False) heldNow

theorem held_owner {s : Machine × (PcbPtr → LockPtr → Prop)} (h : lockSystem.Reachable s) :
    ∀ p k, s.2 p k → s.1.kernel.monitor.owner k = some p := by
  induction h with
  | init h =>
      intro p k hk
      rw [h.2] at hk
      cases hk
  | @step s e s' tail hs ih =>
      intro p k hk
      have hinv := reachable_inv tail.unobserved.unrestricted
      rw [hs.2] at hk
      exact heldAfter_owner hinv.sound (hinv.step hs.1.1).2
        (fun c => hs.1.2 (Machine.meaning_isTransfer c)) ih p k hk

/-- Who holds a lock owns it, so that no two processes hold the same lock. -/
theorem locks_exclude {held : PcbPtr → LockPtr → Prop} (h : lockSystem.Reachable (m, held)) :
    (∀ p k, held p k → (m.kernel.locks k).pid = p.val) ∧
      ∀ p q k, held p k → held q k → p = q := by
  have owner := held_owner h
  refine ⟨fun p k hp => KState.owner_pid (owner p k hp), fun p q k hp hq => ?_⟩
  exact Option.some.inj ((owner p k hp).symm.trans (owner q k hq))

theorem locks_exclude_acquired : ∃ (m : Machine) (held : PcbPtr → LockPtr → Prop) (p : PcbPtr)
    (k : LockPtr), lockSystem.Reachable (m, held) ∧ held p k ∧ (m.kernel.locks k).pid = p.val := by
  obtain ⟨m, m', p, q, k, c, h, hs, hk, -⟩ := exists_acquire
  have plain : ∀ e : KEvent, e.Plain → ¬ e.IsTransfer := fun e he ht => by
    cases e with
    | call p c r =>
        cases c with
        | lockTransfer k q => exact False.elim he
        | _ => exact False.elim ht
    | _ => exact False.elim ht
  obtain ⟨held, hr⟩ := (h.reach.weaken fun _ e => plain e).observed (fun _ _ => False) heldNow
  have hr' : lockSystem.Reachable (m', heldNow held m _ m') := hr.step ⟨⟨hs, id⟩, rfl⟩
  have hheld : heldNow held m (.call p (.lockAcquire k.val) (.returned syncSuccess)) m' p k := by
    simp [heldNow, Machine.meaning, Syscall.meaning, hk, Call.target, Ret.outcome, heldAfter]
  exact ⟨m', _, p, k, hr', hheld, (locks_exclude hr').1 p k hheld⟩

/-! ### Order of service -/

/-- How lock `k` passed on so far. -/
def lockLogNow (k : LockPtr) (o : LockLog PcbPtr) (m : Machine) (e : KEvent) (m' : Machine) :
    LockLog PcbPtr :=
  lockLogAfter k o m.view (m.meaning e) m'.view

/-- No lock is free while somebody waits for it, and the queue is served in order. -/
structure Machine.ServesInTurn (m : Machine) (k : LockPtr) (o : LockLog PcbPtr) : Prop where
  free : (m.kernel.locks k).pid = -1 → m.kernel.list (.waiting (.lock k)) = []
  apart : ∀ p : PcbPtr, (m.kernel.locks k).pid = p.val → p ∉ m.kernel.list (.waiting (.lock k))
  nodup : (m.kernel.list (.waiting (.lock k))).Nodup
  order : o.transferred = false → o.blocked = o.handed ++ m.kernel.list (.waiting (.lock k))

theorem lockLogNow_order {s : Machine × LockLog PcbPtr}
    (h : (kernelSystem.observe ⟨[], [], false⟩ (lockLogNow k)).Reachable s) :
    s.2.transferred = false →
      s.2.blocked = s.2.handed ++ s.1.kernel.monitor.waiting (.lock k) := by
  induction h with
  | init h =>
      intro _
      have hw := (Machine.Init.blank h.1).2.waiting (.lock k)
      rw [h.2]
      exact hw.symm
  | @step s e s' tail hs ih =>
      have hinv := reachable_inv tail.unobserved
      rw [hs.2]
      exact lockLogAfter_fits hinv.sound (hinv.step hs.1).2 ih

/-- Locks are handed on in the order in which processes blocked on them. -/
theorem locks_serve_in_order {o : LockLog PcbPtr}
    (h : (kernelSystem.observe ⟨[], [], false⟩ (lockLogNow k)).Reachable (m, o)) :
    m.ServesInTurn k o := by
  have hinv := reachable_inv h.unobserved
  refine ⟨fun hpid => ?_, fun p hpid hm => ?_, hinv.sound.nodup (.lock k), lockLogNow_order h⟩
  · refine hinv.sound.free k ?_
    simp [Machine.view, KState.monitor, hpid]
  · have hu : m.kernel.inuse (.lock k) = true := LinkedBy.ready_of_mem hm
    exact hinv.sound.apart k p ((Serving.owner_eq_some hu p).mpr hpid) hm

theorem locks_serve_in_order_signaller : ∃ (m : Machine) (k : LockPtr) (o : LockLog PcbPtr)
    (q : PcbPtr), m.kernel.list (.waiting (.lock k)) = [q] ∧ m.ServesInTurn k o := by
  obtain ⟨m, p, q, k, c, h⟩ := exists_waiting
  obtain ⟨i, K, hs, hw⟩ := h.signals
  obtain ⟨o, hr⟩ := (h.reach.unrestricted.step hs).observed ⟨[], [], false⟩ (lockLogNow k)
  exact ⟨m.after q (.condSignal c.val) (.asleep i) K, k, o, q, hw, locks_serve_in_order hr⟩

end DlxOs.Kernel
