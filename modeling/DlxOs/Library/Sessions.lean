import DlxOs.Library.Monitor
import DlxOs.Library.Transition

/-!
# Sessions of processes with a monitor

Between a call and its return a process is inside the call. A process that was
put to sleep returns after it has been taken off the queue. `Sound` ties what a
process inside a call may rely on to the queues and owners of the monitor.
-/

namespace DlxOs.Monitors

open Monitor

variable {P S L C : Type*}

/-- A monitor, the calls that processes are inside of, and the objects created so far. -/
structure Session (P S L C : Type*) where
  mon : Monitor P S L C
  pending : P → Option (Call P S L C)
  inuse : WaitPoint S L C → Bool

/-- What happens in one step of a session. -/
inductive Event (P S L C : Type*)
  | idle
  | exit (p : P)
  | newSem (s : S) (n : Int)
  | newLock (k : L)
  | newCond (c : C) (k : L)
  | call (p : P) (c : Call P S L C) (r : Outcome)
  | ret (p : P) (c : Call P S L C)

/-- The object a call is made on. -/
def Call.target : Call P S L C → WaitPoint S L C
  | .semWait s => .sem s
  | .semSignal s => .sem s
  | .acquire k => .lock k
  | .release k => .lock k
  | .transfer k _ => .lock k
  | .wait c => .cond c
  | .signal c => .cond c

variable [DecidableEq P] [DecidableEq S] [DecidableEq L] [DecidableEq C]

namespace Session

/-- The process is queued nowhere. -/
def Awake (σ : Session P S L C) (p : P) : Prop := ∀ w, p ∉ σ.mon.waiting w

def bindCond (σ : Session P S L C) (c : C) (k : L) : Session P S L C :=
  { σ with mon := { σ.mon with bound := Function.update σ.mon.bound c k }
           inuse := Function.update σ.inuse (.cond c) true }

/-- Process `p` makes call `c`. -/
def perform (σ : Session P S L C) (p : P) (c : Call P S L C) : Session P S L C :=
  { σ with mon := (σ.mon.call p c).2
           pending := if (σ.mon.call p c).1 = .blocked then Function.update σ.pending p (some c)
             else σ.pending }

def finish (σ : Session P S L C) (p : P) : Session P S L C :=
  { σ with pending := Function.update σ.pending p none }

inductive Step (σ : Session P S L C) : Event P S L C → Session P S L C → Prop
  | idle : Step σ .idle σ
  | exit {p} (h : σ.pending p = none) : Step σ (.exit p) σ
  | newSem {s n} (h : σ.inuse (.sem s) = false) :
      Step σ (.newSem s n) { σ with mon := σ.mon.setCount s n
                                    inuse := Function.update σ.inuse (.sem s) true }
  | newLock {k} (h : σ.inuse (.lock k) = false) :
      Step σ (.newLock k) { σ with mon := σ.mon.setOwner k none
                                   inuse := Function.update σ.inuse (.lock k) true }
  | newCond {c k} (h : σ.inuse (.cond c) = false) (hk : σ.inuse (.lock k) = true) :
      Step σ (.newCond c k) (σ.bindCond c k)
  | call {p c} (h : σ.pending p = none) (hc : σ.inuse c.target = true) :
      Step σ (.call p c (σ.mon.call p c).1) (σ.perform p c)
  | ret {p c} (h : σ.pending p = some c) (hp : σ.Awake p) : Step σ (.ret p c) (σ.finish p)

/-- What the queues, the owners and the calls in progress have to do with each other. -/
structure Sound (σ : Session P S L C) : Prop where
  nodup : ∀ w, (σ.mon.waiting w).Nodup
  pending : ∀ w, ∀ p ∈ σ.mon.waiting w, ∃ c, σ.pending p = some c ∧ σ.mon.point c = some w
  granted : ∀ p c k, σ.pending p = some c → σ.Awake p → σ.mon.granted c = some k →
    σ.mon.owner k = some p
  free : ∀ k, σ.mon.owner k = none → σ.mon.waiting (.lock k) = []
  apart : ∀ k p, σ.mon.owner k = some p → p ∉ σ.mon.waiting (.lock k)
  spent : ∀ s, 0 < σ.mon.count s → σ.mon.waiting (.sem s) = []
  sleeps : ∀ p c, σ.pending p = some c → σ.mon.point c ≠ none
  target : ∀ p c, σ.pending p = some c → σ.inuse c.target = true
  bound : ∀ c, σ.inuse (.cond c) = true → σ.inuse (.lock (σ.mon.bound c)) = true
  fresh : ∀ k, σ.inuse (.lock k) = false → σ.mon.owner k = none

variable {σ σ' : Session P S L C} {p q : P} {w v : WaitPoint S L C}

omit [DecidableEq P] [DecidableEq S] [DecidableEq L] [DecidableEq C] in
/-- A process outside all calls is in no queue. -/
theorem Sound.awake (h : σ.Sound) (hp : σ.pending p = none) : σ.Awake p := fun w hm => by
  obtain ⟨c, hc, -⟩ := h.pending w p hm
  rw [hp] at hc
  cases hc

omit [DecidableEq P] [DecidableEq S] [DecidableEq L] [DecidableEq C] in
/-- A process is in at most one queue. -/
theorem Sound.unique (h : σ.Sound) (hw : p ∈ σ.mon.waiting w) (hv : p ∈ σ.mon.waiting v) :
    w = v := by
  obtain ⟨c, hc, ew⟩ := h.pending w p hw
  obtain ⟨d, hd, ev⟩ := h.pending v p hv
  obtain rfl : c = d := Option.some.inj (hc.symm.trans hd)
  exact Option.some.inj (ew.symm.trans ev)

omit [DecidableEq P] [DecidableEq S] [DecidableEq L] [DecidableEq C] in
/-- The queue a process sleeps in is for the lock that its call is to return with. -/
theorem granted_eq_handed {m : Monitor P S L C} {c : Call P S L C} (hw : m.point c = some w) :
    m.handed w = m.granted c := by
  cases c <;> cases hw <;> rfl

omit [DecidableEq P] [DecidableEq S] [DecidableEq L] [DecidableEq C] in
/-- Unused objects have no queue. -/
theorem Sound.unused (h : σ.Sound) (hw : σ.inuse w = false) : σ.mon.waiting w = [] := by
  refine List.eq_nil_iff_forall_not_mem.mpr fun p hm => ?_
  obtain ⟨c, hc, e⟩ := h.pending w p hm
  have ht := h.target p c hc
  have used : σ.inuse w = true := by
    cases c with
    | signal d => exact Option.some.inj e ▸ h.bound d ht
    | semWait s => exact Option.some.inj e ▸ ht
    | acquire k => exact Option.some.inj e ▸ ht
    | wait d => exact Option.some.inj e ▸ ht
    | _ => cases e
  rw [used] at hw
  cases hw

omit [DecidableEq P] [DecidableEq S] [DecidableEq L] [DecidableEq C] in
/-- A process asleep on a condition variable is in no lock's queue. -/
theorem Sound.cond_lock (h : σ.Sound) (c : C) (k : L) (q : P)
    (hq : q ∈ σ.mon.waiting (.cond c)) : q ∉ σ.mon.waiting (.lock k) := fun hm => by
  cases h.unique hq hm

/-- A lock comes into use when it is created. -/
theorem Step.inuse_lock {e : Event P S L C} {k : L} (h : σ.Step e σ')
    (hk : σ'.inuse (.lock k) = true) : σ.inuse (.lock k) = true ∨ e = .newLock k := by
  cases h with
  | @newLock j hj =>
      rcases eq_or_ne k j with rfl | hne
      · exact .inr rfl
      · exact .inl (by simpa [hne] using hk)
  | newSem hs => exact .inl (by simpa using hk)
  | newCond hc hl => exact .inl (by simpa [bindCond] using hk)
  | _ => exact .inl hk

theorem perform_pending_of_ne (σ : Session P S L C) (c : Call P S L C) (hq : q ≠ p) :
    (σ.perform p c).pending q = σ.pending q := by
  simp only [perform]
  split_ifs
  · exact Function.update_of_ne hq ..
  · rfl

/-- A call of another process puts nobody to sleep. -/
theorem Awake.perform (ha : σ.Awake q) (hq : q ≠ p) (c : Call P S L C) :
    (σ.perform p c).Awake q := fun w hm =>
  ((call_cases σ.mon p c).mem_of_mem hm).elim (ha w) fun e => hq e.1

/-- A call keeps a session sound. -/
theorem Sound.call (h : σ.Sound) {c : Call P S L C} (hp : σ.pending p = none)
    (hc : σ.inuse c.target = true) : (σ.perform p c).Sound := by
  have hcase := call_cases σ.mon p c
  have hb : (σ.mon.call p c).2.bound = σ.mon.bound := hcase.bound_eq
  have hpoint : (σ.mon.call p c).2.point = σ.mon.point := by
    funext d
    cases d <;> simp [Monitor.point, hb]
  have hgranted : (σ.mon.call p c).2.granted = σ.mon.granted := by
    funext d
    cases d <;> simp [Monitor.granted, hb]
  have other : ∀ q, q ≠ p → (σ.perform p c).pending q = σ.pending q := fun q hq =>
    perform_pending_of_ne σ c hq
  have self : ∀ d, (σ.perform p c).pending p = some d → (σ.mon.call p c).1 = .blocked ∧ d = c := by
    intro d hd
    simp only [perform] at hd
    split_ifs at hd with e
    · exact ⟨e, by simpa [eq_comm] using hd⟩
    · rw [hp] at hd
      cases hd
  refine ⟨hcase.nodup h.nodup (h.awake hp), fun w q hq => ?_, fun q d k hd hq hk => ?_,
    hcase.free h.free, fun k q => hcase.apart h.nodup (h.awake hp) h.apart h.cond_lock,
    hcase.spent h.spent, fun q d hd => ?_, fun q d hd => ?_, fun d hd => ?_, fun k hk => ?_⟩
  · rcases hcase.mem_of_mem hq with hm | ⟨rfl, hr, hw⟩
    · obtain ⟨d, hd, e⟩ := h.pending w q hm
      have hqp : q ≠ p := fun e => h.awake hp w (e ▸ hm)
      exact ⟨d, (other q hqp).trans hd, (congrFun hpoint d).trans e⟩
    · exact ⟨c, by simp [perform, hr], (congrFun hpoint c).trans hw⟩
  · have hk' : σ.mon.granted d = some k := (congrFun hgranted d).symm.trans hk
    by_cases hqp : q = p
    · subst hqp
      obtain ⟨hr, rfl⟩ := self d hd
      rw [hr] at hcase
      obtain ⟨v, -, hv⟩ := hcase.mem_of_blocked
      exact absurd hv (hq v)
    · have hd' : σ.pending q = some d := (other q hqp).symm.trans hd
      by_cases ha : σ.Awake q
      · exact hcase.owner_of_ne (h.granted q d k hd' ha hk') hqp
      · obtain ⟨w, hw⟩ := not_forall_not.mp ha
        obtain ⟨d', e, hw'⟩ := h.pending w q hw
        obtain rfl : d' = d := Option.some.inj (e.symm.trans hd')
        exact hcase.owner_of_woken hw (hq w) ((granted_eq_handed hw').trans hk')
  · by_cases hqp : q = p
    · subst hqp
      obtain ⟨hr, rfl⟩ := self d hd
      rw [hr] at hcase
      obtain ⟨v, hv, -⟩ := hcase.mem_of_blocked
      simp [perform, hpoint, hv]
    · rw [show (σ.perform p c).mon.point = σ.mon.point from hpoint]
      exact h.sleeps q d ((other q hqp).symm.trans hd)
  · by_cases hqp : q = p
    · subst hqp
      obtain ⟨-, rfl⟩ := self d hd
      exact hc
    · exact h.target q d ((other q hqp).symm.trans hd)
  · rw [show (σ.perform p c).mon.bound = σ.mon.bound from hb]
    exact h.bound d hd
  · by_contra hne
    have e := hcase.owner_source (h.fresh k hk) hne
    subst e
    rw [show (σ.perform p (.acquire k)).inuse (.lock k) = true from hc] at hk
    cases hk

/-- Every step keeps a session sound. -/
theorem Sound.step (h : σ.Sound) {e : Event P S L C} (hs : σ.Step e σ') : σ'.Sound := by
  cases hs with
  | idle => exact h
  | exit hp => exact h
  | @newSem s n hw =>
      refine ⟨h.nodup, h.pending, h.granted, h.free, h.apart, fun t ht => ?_, h.sleeps,
        fun p c hc => ?_, fun c hc => ?_, fun k hk => ?_⟩
      · by_cases e : t = s
        · subst e
          exact h.unused hw
        · exact h.spent t (by simpa [setCount_of_ne _ _ _ e] using ht)
      · by_cases e : c.target = .sem s <;> simp [e, Function.update_of_ne, h.target p c hc]
      · simpa using h.bound c (by simpa using hc)
      · exact h.fresh k (by simpa using hk)
  | @newLock k hw =>
      have ho := h.fresh k hw
      have e : σ.mon.setOwner k none = σ.mon := by
        rw [setOwner, ← ho, Function.update_eq_self]
      simp only [e]
      refine ⟨h.nodup, h.pending, h.granted, h.free, h.apart, h.spent, h.sleeps,
        fun p c hc => ?_, fun c hc => ?_, fun j hj => ?_⟩
      · by_cases e : c.target = .lock k <;> simp [e, Function.update_of_ne, h.target p c hc]
      · have := h.bound c (by simpa using hc)
        by_cases e : σ.mon.bound c = k <;> simp [e, Function.update_of_ne, this]
      · by_cases e : j = k
        · exact e ▸ ho
        · exact h.fresh j (by simpa [e] using hj)
  | @newCond c k hw hk =>
      have unbound : ∀ p d, σ.pending p = some d →
          (σ.bindCond c k).mon.point d = σ.mon.point d ∧
            (σ.bindCond c k).mon.granted d = σ.mon.granted d := by
        intro p d hd
        have hne : d.target ≠ .cond c := fun e => by
          have := h.target p d hd
          rw [e, hw] at this
          cases this
        cases d with
        | wait b => simp_all [Monitor.point, Monitor.granted, bindCond, Call.target]
        | signal b => simp_all [Monitor.point, Monitor.granted, bindCond, Call.target]
        | _ => exact ⟨rfl, rfl⟩
      refine ⟨h.nodup, fun w p hp => ?_, fun p d j hd ha hj => ?_, h.free, h.apart, h.spent,
        fun p d hd => ?_, fun p d hd => ?_, fun b hb => ?_, fun j hj => ?_⟩
      · obtain ⟨d, hd, e⟩ := h.pending w p hp
        exact ⟨d, hd, (unbound p d hd).1.trans e⟩
      · exact h.granted p d j hd ha ((unbound p d hd).2.symm.trans hj)
      · rw [(unbound p d hd).1]
        exact h.sleeps p d hd
      · by_cases e : d.target = .cond c <;>
          simp [bindCond, e, Function.update_of_ne, h.target p d hd]
      · by_cases e : b = c
        · subst e
          simpa [bindCond] using hk
        · simpa [bindCond, e] using h.bound b (by simpa [bindCond, e] using hb)
      · exact h.fresh j (by simpa [bindCond] using hj)
  | call hp hc => exact h.call hp hc
  | @ret p c hp ha =>
      have other : ∀ q d, (σ.finish p).pending q = some d → σ.pending q = some d := by
        intro q d hd
        by_cases e : q = p
        · simp [finish, e] at hd
        · simpa [finish, e] using hd
      refine ⟨h.nodup, fun w q hq => ?_, fun q d k hd => h.granted q d k (other q d hd), h.free,
        h.apart, h.spent, fun q d hd => h.sleeps q d (other q d hd),
        fun q d hd => h.target q d (other q d hd), h.bound, h.fresh⟩
      obtain ⟨d, hd, e⟩ := h.pending w q hq
      have hqp : q ≠ p := fun e => ha w (e ▸ hq)
      exact ⟨d, by simpa [finish, hqp] using hd, e⟩

/-- Nothing has been created, and nobody has made a call. -/
structure Blank (σ : Session P S L C) : Prop where
  waiting : ∀ w, σ.mon.waiting w = []
  owner : ∀ k, σ.mon.owner k = none
  pending : ∀ p, σ.pending p = none
  inuse : ∀ w, σ.inuse w = false

omit [DecidableEq P] [DecidableEq S] [DecidableEq L] [DecidableEq C] in
theorem Blank.sound (h : σ.Blank) : σ.Sound := by
  refine ⟨fun w => ?_, fun w p hp => ?_, fun p c k hp => ?_, fun k _ => h.waiting _, fun k p ho => ?_,
    fun s _ => h.waiting _, fun p c hp => ?_, fun p c hp => ?_, fun c hc => ?_, fun k _ => h.owner k⟩
  · simp [h.waiting]
  · simp [h.waiting] at hp
  · simp [h.pending] at hp
  · simp [h.owner] at ho
  · simp [h.pending] at hp
  · simp [h.pending] at hp
  · simp [h.inuse] at hc

end Session

/-- The runs of sessions. -/
def sessionSystem (P S L C : Type*) [DecidableEq P] [DecidableEq S] [DecidableEq L]
    [DecidableEq C] : Transition.System (Session P S L C) (Event P S L C) where
  Init := Session.Blank
  Step := Session.Step

/-- Every reachable session is sound. -/
theorem reachable_sound {σ : Session P S L C} (h : (sessionSystem P S L C).Reachable σ) :
    σ.Sound :=
  h.invariant (P := Session.Sound) (fun _ h => Session.Blank.sound h) fun _ _ _ _ h hs => h.step hs

end DlxOs.Monitors
