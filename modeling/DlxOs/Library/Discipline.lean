import DlxOs.Library.Threads

/-!
# Threads under one lock

A program is disciplined when its local states tell who is inside the critical
section and only those inside touch the memory. The owner of the lock then is
the process inside. Hand-off gives a proof rule for monitors: what holds when
the lock is free, what a signaller promises to the process it wakes, and what
the process inside may rely on at each of its local states.
-/

namespace DlxOs.Monitors

open Monitor Session Transition

variable {P S L C : Type*} {Loc : P → Type*} {Mem : Type*}

/-- The action of a local state keeps to the discipline of lock `k`. -/
def Action.Obeys {Loc : Type*} (k : L) (holds : Loc → Prop) (l : Loc) :
    Action P S L C Loc Mem → Prop
  | .call (.acquire j) l' => j = k ∧ ¬ holds l ∧ holds l'
  | .call (.release j) l' => j = k ∧ holds l ∧ ¬ holds l'
  | .call (.transfer _ _) _ => False
  | .call (.wait _) l' => holds l ∧ holds l'
  | .call (.signal _) l' => holds l ∧ holds l'
  | .call (.semWait _) l' => (holds l' ↔ holds l)
  | .call (.semSignal _) l' => (holds l' ↔ holds l)
  | .compute f => ∀ m, (holds (f m).1 ↔ holds l) ∧ (holds l ∨ (f m).2 = m)
  | .stop => True

/-- Local states tell who is inside the critical section of lock `k`. -/
def Program.Disciplined (π : Program P S L C Loc Mem) (k : L) (holds : (p : P) → Loc p → Prop) :
    Prop :=
  ∀ p l, (π p l).Obeys k (holds p) l

namespace Threads

/-- The process is in the critical section of `k`, or has been let in and has not returned yet. -/
def Inside (k : L) (holds : (p : P) → Loc p → Prop) (s : Threads P S L C Loc Mem) (p : P) : Prop :=
  match s.session.pending p with
  | none => holds p (s.loc p)
  | some c =>
    (s.session.mon.granted c = some k ∧ s.session.Awake p) ∨
      (s.session.mon.granted c ≠ some k ∧ holds p (s.loc p))

end Threads

variable [DecidableEq P] [DecidableEq S] [DecidableEq L] [DecidableEq C]

section Calls

variable {m m' : Monitor P S L C} {p q : P} {c : Call P S L C} {r : Outcome} {k : L}

/-- A process that gets a lock through another's call was waiting for it and waits no more. -/
theorem CallCase.owner_gained (h : CallCase m p c r m') (hd : ∀ w, (m.waiting w).Nodup)
    (ht : ∀ j o, c ≠ .transfer j o) (ho : m'.owner k = some q) (hq : q ≠ p) : m.owner k = some q ∨
      ∃ w, q ∈ m.waiting w ∧ q ∉ m'.waiting w ∧ m.handed w = some k := by
  by_cases hk : m.lockOf c = some k
  · cases h with
    | acquireOwned j h =>
        exact .inl ho
    | acquireFree j h =>
        obtain rfl : j = k := Option.some.inj hk
        rw [setOwner_self] at ho
        exact absurd (Option.some.inj ho).symm hq
    | acquireSleep j h ho' => exact .inl ho
    | releaseRefused j h => exact .inl ho
    | release j h =>
        obtain rfl : j = k := Option.some.inj hk
        obtain ⟨rest, hw⟩ := waiting_of_handOver ho
        exact .inr ⟨.lock j, by simp [hw], not_waiting_of_handOver (hd (.lock j)) ho, rfl⟩
    | transferRefused j o h => exact .inl ho
    | transfer j o h => exact absurd rfl (ht j o)
    | waitRefused d h => exact .inl ho
    | wait d h =>
        obtain rfl : m.bound d = k := Option.some.inj hk
        have hw := waiting_of_handOver ho
        have hq' := not_waiting_of_handOver
          (by rw [enqueue_of_ne _ _ _ _ (by simp)]; exact hd (.lock (m.bound d))) ho
        rw [enqueue_of_ne _ _ _ _ (by simp)] at hw
        obtain ⟨rest, hw⟩ := hw
        exact .inr ⟨.lock (m.bound d), by simp [hw], hq', rfl⟩
    | signalRefused d h => exact .inl ho
    | signalNone d h hw => exact .inl ho
    | @signal d a rest h hw =>
        obtain rfl : m.bound d = k := Option.some.inj hk
        rw [enqueue_owner, setOwner_self] at ho
        obtain rfl : a = q := Option.some.inj ho
        refine .inr ⟨.cond d, by simp [hw], ?_, rfl⟩
        rw [enqueue_of_ne _ _ _ _ (by simp), setOwner_waiting, setWaiting_self]
        exact (List.nodup_cons.mp (hw ▸ hd (.cond d))).1
    | _ => cases hk
  · exact .inl ((h.owner_other hk).symm.trans ho)

variable {σ : Session P S L C}

/-- Whose call is not for the lock gets it or loses it through no other process's call. -/
theorem Session.Sound.owner_perform (h : σ.Sound) (ht : ∀ j o, c ≠ .transfer j o) (hq : q ≠ p)
    (hn : ∀ d, σ.pending q = some d → σ.mon.granted d ≠ some k) :
    (σ.perform p c).mon.owner k = some q ↔ σ.mon.owner k = some q := by
  have hcase := call_cases σ.mon p c
  constructor
  · intro ho
    rcases hcase.owner_gained h.nodup ht ho hq with ho | ⟨w, hw, -, hk⟩
    · exact ho
    · obtain ⟨d, hd, e⟩ := h.pending w q hw
      exact absurd ((granted_eq_handed e).symm.trans hk) (hn d hd)
  · intro ho
    exact hcase.owner_of_ne ho hq

/-- Whose call is for the lock gets it from another process's call when this call wakes it. -/
theorem Session.Sound.owner_perform_granted (h : σ.Sound) (ht : ∀ j o, c ≠ .transfer j o)
    (hq : q ≠ p) {d : Call P S L C} (hd : σ.pending q = some d) (hk : σ.mon.granted d = some k)
    (ho : σ.mon.owner k = some q ↔ σ.Awake q) :
    (σ.perform p c).mon.owner k = some q ↔ (σ.perform p c).Awake q := by
  have hcase := call_cases σ.mon p c
  constructor
  · intro ho'
    rcases hcase.owner_gained h.nodup ht ho' hq with ho' | ⟨w, hw, hw', -⟩
    · exact (ho.mp ho').perform hq c
    · intro v hv
      have hv' := (hcase.mem_of_mem hv).resolve_right fun e => hq e.1
      exact hw' (h.unique hw hv' ▸ hv)
  · intro ha'
    by_cases ha : σ.Awake q
    · exact hcase.owner_of_ne (ho.mpr ha) hq
    · obtain ⟨w, hw⟩ := not_forall_not.mp ha
      obtain ⟨d', hd', e⟩ := h.pending w q hw
      obtain rfl : d' = d := Option.some.inj (hd'.symm.trans hd)
      exact hcase.owner_of_woken hw (ha' w) ((granted_eq_handed e).trans hk)

end Calls

namespace Threads

variable {π : Program P S L C Loc Mem} {s s' start : Threads P S L C Loc Mem} {p q : P} {k : L}
  {holds : (p : P) → Loc p → Prop}

/-- The lock belongs to the process inside. -/
def Guarded (k : L) (holds : (p : P) → Loc p → Prop) (s : Threads P S L C Loc Mem) : Prop :=
  ∀ p, s.session.mon.owner k = some p ↔ s.Inside k holds p

/-- Another process's call lets a process in exactly when it hands it the lock. -/
theorem Guarded.call_other (hg : s.Guarded k holds) (hs : s.Coherent π) {c : Call P S L C}
    (ht : ∀ j o, c ≠ .transfer j o) (hq : q ≠ p) :
    (s.call p c).session.mon.owner k = some q ↔ (s.call p c).Inside k holds q := by
  have hpend : (s.call p c).session.pending q = s.session.pending q :=
    perform_pending_of_ne _ _ hq
  have hgranted : (s.call p c).session.mon.granted = s.session.mon.granted := by
    funext d
    cases d <;> simp [Monitor.granted, perform, (call_cases s.session.mon p c).bound_eq]
  have hi := hg q
  simp only [Inside, hpend, hgranted, call_loc] at hi ⊢
  cases hp : s.session.pending q with
  | none =>
      rw [hp] at hi
      rw [← hi]
      exact hs.sound.owner_perform ht hq fun d hd => by rw [hp] at hd; cases hd
  | some d =>
      simp only [hp] at hi ⊢
      by_cases hk : s.session.mon.granted d = some k
      · simp only [hk, true_and, ne_eq, not_true_eq_false, false_and, or_false] at hi ⊢
        exact hs.sound.owner_perform_granted ht hq hp hk hi
      · simp only [hk, false_and, ne_eq, not_false_eq_true, true_and, false_or] at hi ⊢
        rw [← hi]
        refine hs.sound.owner_perform ht hq fun d' hd => ?_
        obtain rfl : d = d' := Option.some.inj (hp.symm.trans hd)
        exact hk

omit [DecidableEq P] [DecidableEq S] [DecidableEq L] [DecidableEq C] in
theorem Inside.congr {t : Threads P S L C Loc Mem} (hm : t.session.mon = s.session.mon)
    (hp : t.session.pending q = s.session.pending q) (hl : t.loc q = s.loc q) :
    t.Inside k holds q ↔ s.Inside k holds q := by
  simp only [Inside, hm, hp, hl, Awake]

omit [DecidableEq P] [DecidableEq S] [DecidableEq L] [DecidableEq C] in
/-- With a free lock nobody is inside but those asleep at a condition variable. -/
theorem Guarded.quiet (hg : s.Guarded k holds) (hs : s.session.Sound)
    (free : s.session.mon.owner k = none) (hh : holds p (s.loc p)) :
    ∃ c, s.session.pending p = some (.wait c) ∧ p ∈ s.session.mon.waiting (.cond c) := by
  have hi := (hg p).not.mp (by rw [free]; simp)
  rw [Inside] at hi
  cases hp : s.session.pending p with
  | none => exact absurd hh (by simpa only [hp] using hi)
  | some c =>
      simp only [hp, not_or, not_and] at hi
      have hgranted : s.session.mon.granted c = some k := not_not.mp fun hn => hi.2 hn hh
      obtain ⟨w, hw⟩ := not_forall_not.mp (hi.1 hgranted)
      obtain ⟨d, hd, e⟩ := hs.pending w p hw
      obtain rfl : d = c := Option.some.inj (hd.symm.trans hp)
      have hqueue := hs.free k free
      have hempty : w ≠ .lock k := by
        rintro rfl
        simp [hqueue] at hw
      cases d with
      | wait b =>
          obtain rfl : WaitPoint.cond b = w := Option.some.inj e
          exact ⟨b, rfl, hw⟩
      | acquire j =>
          obtain rfl : j = k := Option.some.inj hgranted
          exact absurd (Option.some.inj e).symm hempty
      | signal b =>
          obtain rfl : s.session.mon.bound b = k := Option.some.inj hgranted
          exact absurd (Option.some.inj e).symm hempty
      | _ => cases hgranted

omit [DecidableEq P] [DecidableEq S] [DecidableEq L] [DecidableEq C] in
/-- Who owns the only lock is awake or sleeps on a semaphore. -/
theorem Guarded.owner_awake (hg : s.Guarded k holds) (hs : s.session.Sound) (only : ∀ j, j = k)
    (ho : s.session.mon.owner k = some p) :
    s.session.Awake p ∨ ∃ t, s.session.pending p = some (.semWait t) := by
  by_cases awake : s.session.Awake p
  · exact .inl awake
  right
  obtain ⟨w, hw⟩ := not_forall_not.mp awake
  obtain ⟨c, hc, e⟩ := hs.pending w p hw
  have hi := (hg p).mp ho
  simp only [Inside, hc, awake, and_false, false_or] at hi
  cases c with
  | semWait t => exact ⟨t, hc⟩
  | acquire j => exact absurd (congrArg some (only j)) hi.1
  | wait b => exact absurd (congrArg some (only _)) hi.1
  | signal b => exact absurd (congrArg some (only _)) hi.1
  | _ => cases e

/-- A caller that sleeps is inside exactly when it sleeps with the lock. -/
theorem Guarded.block (hg : s.Guarded k holds) (hs : s.Coherent π) (hd : π.Disciplined k holds)
    (hb : ∀ c, s.session.mon.bound c = k) {c : Call P S L C} {l : Loc p}
    (outside : s.session.pending p = none) (act : π p (s.loc p) = .call c l)
    (blocked : (s.session.mon.call p c).1 = .blocked) :
    (s.call p c).session.mon.owner k = some p ↔ (s.call p c).Inside k holds p := by
  have hi := hg p
  have hobey := hd p (s.loc p)
  have hawake := hs.sound.awake outside
  have hpend : (s.call p c).session.pending p = some c := by simp [perform, blocked]
  have hcase := call_cases s.session.mon p c
  rw [blocked] at hcase
  obtain ⟨v, -, hv⟩ := hcase.mem_of_blocked
  have asleep : ¬ (s.call p c).session.Awake p := fun ha => ha v hv
  simp only [Inside, outside] at hi
  simp only [Inside, hpend, asleep, and_false, false_or, call_loc]
  rw [act] at hobey
  change (s.session.mon.call p c).2.owner k = some p ↔
    (s.session.mon.call p c).2.granted c ≠ some k ∧ holds p (s.loc p)
  generalize (s.session.mon.call p c).2 = m' at hcase
  cases hcase with
  | semSleep t h => simpa [Monitor.granted] using hi
  | acquireSleep j h ho =>
      obtain ⟨rfl, -, -⟩ := hobey
      simp [Monitor.granted, h, ho]
  | wait d h =>
      have hne : (s.session.mon.waiting (.lock k)).head? ≠ some p := fun e =>
        hawake _ (List.mem_of_mem_head? e)
      simpa [Monitor.granted, hb, handOver_owner, enqueue_of_ne] using hne
  | @signal d q rest h hw =>
      have hne : q ≠ p := fun e => hawake (.cond d) (by simp [hw, e])
      simpa [Monitor.granted, hb] using hne

/-- A caller that returns at once is inside exactly when its next local state holds the lock. -/
theorem Guarded.pass (hg : s.Guarded k holds) (hs : s.Coherent π) (hd : π.Disciplined k holds)
    (hb : ∀ c, s.session.mon.bound c = k) {c : Call P S L C} {l : Loc p} {r : Bool}
    (outside : s.session.pending p = none) (act : π p (s.loc p) = .call c l)
    (returned : (s.session.mon.call p c).1 = .returned r) :
    (s.session.mon.call p c).2.owner k = some p ↔ holds p l := by
  have hi := hg p
  have hobey := hd p (s.loc p)
  have hawake := hs.sound.awake outside
  have hcase := call_cases s.session.mon p c
  simp only [Inside, outside] at hi
  rw [returned] at hcase
  rw [act] at hobey
  generalize (s.session.mon.call p c).2 = m' at hcase
  cases hcase with
  | semTake t h => exact hi.trans hobey.symm
  | semCount t h => exact hi.trans hobey.symm
  | semWake t h hw => exact hi.trans hobey.symm
  | acquireOwned j h =>
      obtain ⟨rfl, -, hl⟩ := hobey
      exact iff_of_true h hl
  | acquireFree j h =>
      obtain ⟨rfl, -, hl⟩ := hobey
      exact iff_of_true (setOwner_self ..) hl
  | releaseRefused j h =>
      obtain ⟨rfl, -, hl⟩ := hobey
      exact iff_of_false h hl
  | release j h =>
      obtain ⟨rfl, -, hl⟩ := hobey
      refine iff_of_false (fun e => ?_) hl
      rw [handOver_owner] at e
      exact hawake _ (List.mem_of_mem_head? e)
  | transferRefused j o h => exact hobey.elim
  | transfer j o h => exact hobey.elim
  | waitRefused d h => exact absurd (hb d ▸ hi.mpr hobey.1) h
  | signalRefused d h => exact absurd (hb d ▸ hi.mpr hobey.1) h
  | signalNone d h hw => exact iff_of_true (hi.mpr hobey.1) hobey.2

/-- Every step leaves the lock with the process inside. -/
theorem Guarded.step (hg : s.Guarded k holds) (hs : s.Coherent π) (hd : π.Disciplined k holds)
    (hb : ∀ c, s.session.mon.bound c = k) (h : s.Step π p s') : s'.Guarded k holds := by
  intro q
  have hi := hg q
  by_cases hq : q = p
  · subst hq
    have hobey := hd q (s.loc q)
    cases h with
    | @compute f outside h =>
        rw [h] at hobey
        simp only [Inside, outside] at hi
        simp only [Inside, setLoc_session, outside, setLoc_self]
        exact hi.trans (hobey s.mem).1.symm
    | block outside h used blocked => exact hg.block hs hd hb outside h blocked
    | @pass c l r outside h used returned =>
        have hp : (s.session.perform q c).pending q = none := by
          simpa [perform, returned] using outside
        simp only [Inside, setLoc_session, call_session, hp, setLoc_self]
        exact hg.pass hs hd hb outside h returned
    | @wake c l inside awake h =>
        rw [h] at hobey
        simp only [Inside, inside, awake, and_true] at hi
        simp only [Inside, setLoc_session, wake_session, finish, Function.update_self, setLoc_self]
        cases c with
        | semWait t => exact (hi.trans (by simp [Monitor.granted])).trans hobey.symm
        | acquire j =>
            obtain ⟨rfl, -, hl⟩ := hobey
            exact iff_of_true (hi.mpr (.inl rfl)) hl
        | wait d => exact iff_of_true (hi.mpr (.inl (congrArg some (hb d)))) hobey.2
        | signal d => exact iff_of_true (hi.mpr (.inl (congrArg some (hb d)))) hobey.2
        | _ => exact absurd rfl (hs.sound.sleeps q _ inside)
  · have ht : ∀ c l, π p (s.loc p) = .call c l → ∀ j o, c ≠ .transfer j o := by
      rintro c l h j o rfl
      have hobey := hd p (s.loc p)
      rw [h] at hobey
      exact hobey
    cases h with
    | compute outside h => exact hi.trans (Inside.congr (by rfl) (by rfl) (setLoc_of_ne s _ hq)).symm
    | block outside h used blocked => exact hg.call_other hs (ht _ _ h) hq
    | pass outside h used returned =>
        exact (hg.call_other hs (ht _ _ h) hq).trans
          (Inside.congr (by rfl) (by rfl) (setLoc_of_ne _ _ hq)).symm
    | wake inside awake h =>
        exact hi.trans
          (Inside.congr (by rfl) (Function.update_of_ne hq ..)
            (Function.update_of_ne hq ..)).symm

/-- In every reachable state the owner of the lock is the process inside. -/
theorem reachable_guarded (fresh : start.Fresh) (hd : π.Disciplined k holds)
    (hb : ∀ c, start.session.mon.bound c = k) (h0 : ∀ p, ¬ holds p (start.loc p))
    (h : (π.system start).Reachable s) : s.Guarded k holds := by
  refine h.invariant (P := Guarded k holds) (fun t (e : t = start) p => ?_)
    fun t p t' hr ih h => ?_
  · subst e
    simp [Inside, fresh.owner, fresh.pending, h0]
  · refine ih.step (reachable_coherent fresh hr) hd (fun c => ?_) h
    rw [(reachable_fixed fresh hr).1, hb]

/-- Who stops outside the critical section owns the lock no more. -/
theorem stops_without (fresh : start.Fresh) (hd : π.Disciplined k holds)
    (hb : ∀ c, start.session.mon.bound c = k) (h0 : ∀ p, ¬ holds p (start.loc p))
    (outside : ∀ p l, π p l = .stop → ¬ holds p l) (h : (π.system start).Reachable s)
    (act : π p (s.loc p) = .stop) : s.session.mon.owner k ≠ some p := by
  intro ho
  have hi := (reachable_guarded fresh hd hb h0 h p).mp ho
  rw [Inside, (reachable_coherent fresh h).stopped act] at hi
  exact outside p _ act hi

end Threads

end DlxOs.Monitors
