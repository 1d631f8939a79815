import DlxOs.Library.Histories
import Mathlib.Algebra.BigOperators.Fin
import Mathlib.Algebra.Order.BigOperators.Group.Finset

/-!
# Threads over a session

Each process runs a program of its own over a shared memory. From its local
state it makes a call, computes on the memory, or stops. A process inside a
call does nothing until it has been woken. Sums over the processes change only
in the summand of the process that takes a step.
-/

namespace DlxOs.Monitors

open Monitor Session Transition

variable {P S L C : Type*} {Loc : P → Type*} {Mem : Type*}

/-- What a process does next; a call leads to the same local state whatever it returns. -/
inductive Action (P S L C Loc Mem : Type*)
  | call (c : Call P S L C) (next : Loc)
  | compute (f : Mem → Loc × Mem)
  | stop

/-- What each process does in each of its local states. -/
abbrev Program (P S L C : Type*) (Loc : P → Type*) (Mem : Type*) :=
  (p : P) → Loc p → Action P S L C (Loc p) Mem

/-- The processes over a session and a shared memory. -/
structure Threads (P S L C : Type*) (Loc : P → Type*) (Mem : Type*) where
  session : Session P S L C
  loc : (p : P) → Loc p
  mem : Mem

variable [DecidableEq P] [DecidableEq S] [DecidableEq L] [DecidableEq C]

namespace Threads

/-- Process `p` is at local state `l`. -/
def setLoc (s : Threads P S L C Loc Mem) (p : P) (l : Loc p) : Threads P S L C Loc Mem :=
  { s with loc := Function.update s.loc p l }

/-- Process `p` calls `c`, up to its return or its sleep. -/
def call (s : Threads P S L C Loc Mem) (p : P) (c : Call P S L C) : Threads P S L C Loc Mem :=
  { s with session := s.session.perform p c }

/-- Process `p` returns after a sleep. -/
def wake (s : Threads P S L C Loc Mem) (p : P) : Threads P S L C Loc Mem :=
  { s with session := s.session.finish p }

inductive Step (π : Program P S L C Loc Mem) (s : Threads P S L C Loc Mem) :
    P → Threads P S L C Loc Mem → Prop
  | compute {p f} (outside : s.session.pending p = none) (h : π p (s.loc p) = .compute f) :
      Step π s p { s.setLoc p (f s.mem).1 with mem := (f s.mem).2 }
  | block {p c l} (outside : s.session.pending p = none) (h : π p (s.loc p) = .call c l)
      (used : s.session.inuse c.target = true)
      (blocked : (s.session.mon.call p c).1 = .blocked) : Step π s p (s.call p c)
  | pass {p c l r} (outside : s.session.pending p = none) (h : π p (s.loc p) = .call c l)
      (used : s.session.inuse c.target = true)
      (returned : (s.session.mon.call p c).1 = .returned r) : Step π s p ((s.call p c).setLoc p l)
  | wake {p c l} (inside : s.session.pending p = some c) (awake : s.session.Awake p)
      (h : π p (s.loc p) = .call c l) : Step π s p ((s.wake p).setLoc p l)

end Threads

/-- The runs of a program from a state; the labels are the processes that take the steps. -/
def Program.system (π : Program P S L C Loc Mem) (start : Threads P S L C Loc Mem) :
    System (Threads P S L C Loc Mem) P where
  Init s := s = start
  Step := Threads.Step π

namespace Threads

variable {π : Program P S L C Loc Mem} {s s' start : Threads P S L C Loc Mem} {p q : P}

omit [DecidableEq S] [DecidableEq L] [DecidableEq C] in
@[simp] theorem setLoc_self (s : Threads P S L C Loc Mem) (p : P) (l : Loc p) :
    (s.setLoc p l).loc p = l := Function.update_self ..

omit [DecidableEq S] [DecidableEq L] [DecidableEq C] in
theorem setLoc_of_ne (s : Threads P S L C Loc Mem) (l : Loc p) (h : q ≠ p) :
    (s.setLoc p l).loc q = s.loc q := Function.update_of_ne h ..

omit [DecidableEq S] [DecidableEq L] [DecidableEq C] in
@[simp] theorem setLoc_session (s : Threads P S L C Loc Mem) (p : P) (l : Loc p) :
    (s.setLoc p l).session = s.session := rfl

omit [DecidableEq S] [DecidableEq L] [DecidableEq C] in
@[simp] theorem setLoc_mem (s : Threads P S L C Loc Mem) (p : P) (l : Loc p) :
    (s.setLoc p l).mem = s.mem := rfl

@[simp] theorem call_loc (s : Threads P S L C Loc Mem) (p : P) (c : Call P S L C) :
    (s.call p c).loc = s.loc := rfl

@[simp] theorem call_mem (s : Threads P S L C Loc Mem) (p : P) (c : Call P S L C) :
    (s.call p c).mem = s.mem := rfl

@[simp] theorem call_session (s : Threads P S L C Loc Mem) (p : P) (c : Call P S L C) :
    (s.call p c).session = s.session.perform p c := rfl

omit [DecidableEq S] [DecidableEq L] [DecidableEq C] in
@[simp] theorem wake_loc (s : Threads P S L C Loc Mem) (p : P) : (s.wake p).loc = s.loc := rfl

omit [DecidableEq S] [DecidableEq L] [DecidableEq C] in
@[simp] theorem wake_mem (s : Threads P S L C Loc Mem) (p : P) : (s.wake p).mem = s.mem := rfl

omit [DecidableEq S] [DecidableEq L] [DecidableEq C] in
@[simp] theorem wake_session (s : Threads P S L C Loc Mem) (p : P) :
    (s.wake p).session = s.session.finish p := rfl

/-- Every step is a step of the session, or leaves the session alone. -/
theorem Step.session_step (h : s.Step π p s') : ∃ e, s.session.Step e s'.session := by
  cases h with
  | compute outside h => exact ⟨.idle, .idle⟩
  | block outside h used blocked => exact ⟨_, .call outside used⟩
  | pass outside h used returned => exact ⟨_, .call outside used⟩
  | wake inside awake h => exact ⟨_, .ret inside awake⟩

/-- What a process does is determined. -/
theorem Step.unique {t : Threads P S L C Loc Mem} (h : s.Step π p s') (h' : s.Step π p t) :
    s' = t := by
  cases h with
  | compute outside act =>
      cases h' with
      | compute outside' act' => cases act.symm.trans act'; rfl
      | block _ act' => cases act.symm.trans act'
      | pass _ act' => cases act.symm.trans act'
      | wake inside' => cases outside.symm.trans inside'
  | block outside act used blocked =>
      cases h' with
      | compute _ act' => cases act.symm.trans act'
      | block outside' act' used' blocked' => cases act.symm.trans act'; rfl
      | pass outside' act' used' returned =>
          cases act.symm.trans act'
          cases blocked.symm.trans returned
      | wake inside' => cases outside.symm.trans inside'
  | pass outside act used returned =>
      cases h' with
      | compute _ act' => cases act.symm.trans act'
      | block outside' act' used' blocked =>
          cases act.symm.trans act'
          cases blocked.symm.trans returned
      | pass outside' act' used' returned' => cases act.symm.trans act'; rfl
      | wake inside' => cases outside.symm.trans inside'
  | wake inside awake act =>
      cases h' with
      | wake inside' awake' act' => cases act.symm.trans act'; rfl
      | compute outside' => cases outside'.symm.trans inside
      | block outside' => cases outside'.symm.trans inside
      | pass outside' => cases outside'.symm.trans inside

/-- A step moves its process only. -/
theorem Step.loc_of_ne (h : s.Step π p s') (hq : q ≠ p) : s'.loc q = s.loc q := by
  cases h with
  | block => rfl
  | _ => exact Function.update_of_ne hq ..

/-- A step leaves the calls of other processes alone. -/
theorem Step.pending_of_ne (h : s.Step π p s') (hq : q ≠ p) :
    s'.session.pending q = s.session.pending q := by
  cases h with
  | compute => rfl
  | block => exact perform_pending_of_ne _ _ hq
  | pass => exact perform_pending_of_ne _ _ hq
  | wake => exact Function.update_of_ne hq ..

/-- Nobody binds a condition variable or creates an object. -/
theorem Step.fixed (h : s.Step π p s') :
    s'.session.mon.bound = s.session.mon.bound ∧ s'.session.inuse = s.session.inuse := by
  cases h with
  | compute => exact ⟨rfl, rfl⟩
  | block => exact ⟨(call_cases _ _ _).bound_eq, rfl⟩
  | pass => exact ⟨(call_cases _ _ _).bound_eq, rfl⟩
  | wake => exact ⟨rfl, rfl⟩

/-- The session is sound, and whoever is inside a call is where the program makes it. -/
structure Coherent (π : Program P S L C Loc Mem) (s : Threads P S L C Loc Mem) : Prop where
  sound : s.session.Sound
  called : ∀ p c, s.session.pending p = some c → ∃ l, π p (s.loc p) = .call c l

theorem Coherent.step (hs : s.Coherent π) (h : s.Step π p s') : s'.Coherent π := by
  obtain ⟨e, he⟩ := h.session_step
  refine ⟨hs.sound.step he, fun q c hc => ?_⟩
  by_cases hq : q = p
  · subst hq
    cases h with
    | compute outside h => exact absurd (outside.symm.trans hc) (by simp)
    | @block d l outside h used blocked =>
        obtain rfl : d = c := by simpa [perform, blocked] using hc
        exact ⟨l, h⟩
    | pass outside h used returned => simp [perform, returned, outside] at hc
    | wake inside awake h => simp [finish] at hc
  · rw [h.pending_of_ne hq] at hc
    rw [h.loc_of_ne hq]
    exact hs.called q c hc

omit [DecidableEq P] [DecidableEq S] [DecidableEq L] [DecidableEq C] in
/-- Who computes is outside all calls. -/
theorem Coherent.outside (hs : s.Coherent π) {f : Mem → Loc p × Mem}
    (act : π p (s.loc p) = .compute f) : s.session.pending p = none := by
  cases hp : s.session.pending p with
  | none => rfl
  | some c =>
      obtain ⟨l, h⟩ := hs.called p c hp
      rw [act] at h
      cases h

omit [DecidableEq P] [DecidableEq S] [DecidableEq L] [DecidableEq C] in
/-- Who stops is outside all calls. -/
theorem Coherent.stopped (hs : s.Coherent π) (act : π p (s.loc p) = .stop) :
    s.session.pending p = none := by
  cases hp : s.session.pending p with
  | none => rfl
  | some c =>
      obtain ⟨l, h⟩ := hs.called p c hp
      rw [act] at h
      cases h

/-- Nobody is inside a call at the start, and everything has been created. -/
structure Fresh (s : Threads P S L C Loc Mem) : Prop where
  waiting : ∀ w, s.session.mon.waiting w = []
  owner : ∀ k, s.session.mon.owner k = none
  pending : ∀ p, s.session.pending p = none
  inuse : ∀ w, s.session.inuse w = true

omit [DecidableEq P] [DecidableEq S] [DecidableEq L] [DecidableEq C] in
theorem Fresh.coherent (h : start.Fresh) : start.Coherent π := by
  refine ⟨⟨fun w => ?_, fun w p hp => ?_, fun p c k hp => ?_, fun k _ => h.waiting _,
    fun k p ho => ?_, fun s _ => h.waiting _, fun p c hp => ?_, fun p c hp => ?_,
    fun c _ => h.inuse _, fun k _ => h.owner k⟩, fun p c hp => ?_⟩
  · simp [h.waiting]
  · simp [h.waiting] at hp
  · simp [h.pending] at hp
  · simp [h.owner] at ho
  all_goals simp [h.pending] at hp

/-- Who takes a step is not asleep. -/
theorem Step.awake (h : s.Step π p s') (hs : s.Coherent π) : s.session.Awake p := by
  cases h with
  | compute outside => exact hs.sound.awake outside
  | block outside => exact hs.sound.awake outside
  | pass outside => exact hs.sound.awake outside
  | wake _ awake => exact awake

/-- Who takes a step has not stopped. -/
theorem Step.ne_stop (h : s.Step π p s') : π p (s.loc p) ≠ .stop := by
  intro act
  cases h with
  | compute _ act' => cases act.symm.trans act'
  | block _ act' => cases act.symm.trans act'
  | pass _ act' => cases act.symm.trans act'
  | wake _ _ act' => cases act.symm.trans act'

theorem reachable_coherent (fresh : start.Fresh) (h : (π.system start).Reachable s) :
    s.Coherent π :=
  h.invariant (P := Coherent π) (fun t (e : t = start) => e ▸ fresh.coherent)
    fun _ _ _ _ hs h => hs.step h

/-- The objects stay in use, and the condition variables bound to their locks. -/
theorem reachable_fixed (fresh : start.Fresh) (h : (π.system start).Reachable s) :
    s.session.mon.bound = start.session.mon.bound ∧ ∀ w, s.session.inuse w = true := by
  refine h.invariant
    (P := fun s => s.session.mon.bound = start.session.mon.bound ∧ ∀ w, s.session.inuse w = true)
    (fun t (e : t = start) => ?_) fun t p t' _ ih h => ?_
  · subst e
    exact ⟨rfl, fresh.inuse⟩
  · exact ⟨h.fixed.1.trans ih.1, fun w => (congrFun h.fixed.2 w).trans (ih.2 w)⟩

/-- What a process knows of the memory survives: its own actions keep it, and the computations of
others do not touch it. -/
theorem reachable_local {K : (p : P) → Loc p → Mem → Prop} (init : ∀ p, K p (start.loc p) start.mem)
    (call : ∀ s p c l, (π.system start).Reachable s → π p (s.loc p) = .call c l →
      K p (s.loc p) s.mem → K p l s.mem)
    (compute : ∀ s p f, (π.system start).Reachable s → s.session.pending p = none →
      π p (s.loc p) = .compute f → K p (s.loc p) s.mem → K p (f s.mem).1 (f s.mem).2)
    (frame : ∀ s p f q, (π.system start).Reachable s → s.session.pending p = none →
      π p (s.loc p) = .compute f → q ≠ p → K q (s.loc q) s.mem → K q (s.loc q) (f s.mem).2)
    (h : (π.system start).Reachable s) (p : P) : K p (s.loc p) s.mem := by
  refine h.invariant (P := fun s => ∀ p, K p (s.loc p) s.mem) (fun t (e : t = start) => ?_)
    (fun t p t' hr ih h q => ?_) p
  · rw [e]
    exact init
  · by_cases hq : q = p
    · subst hq
      cases h with
      | compute outside h =>
          change K q ((t.setLoc q _).loc q) _
          rw [setLoc_self]
          exact compute t q _ hr outside h (ih q)
      | block => exact ih q
      | pass outside h used returned =>
          rw [setLoc_self]
          exact call t q _ _ hr h (ih q)
      | wake inside awake h =>
          rw [setLoc_self]
          exact call t q _ _ hr h (ih q)
    · rw [h.loc_of_ne hq]
      cases h with
      | compute outside h => exact frame t p _ q hr outside h hq (ih q)
      | _ => exact ih q

/-! ### Sums over the processes -/

section Tally

variable [Fintype P]

/-- The sum of a measure of where the processes are. -/
def tally (f : (p : P) → Loc p → Option (Call P S L C) → ℕ) (s : Threads P S L C Loc Mem) : ℕ :=
  ∑ p, f p (s.loc p) (s.session.pending p)

/-- A step changes a sum by what it changes for its process. -/
theorem Step.tally (f : (p : P) → Loc p → Option (Call P S L C) → ℕ) (h : s.Step π p s') :
    s'.tally f + f p (s.loc p) (s.session.pending p) =
      s.tally f + f p (s'.loc p) (s'.session.pending p) := by
  have rest : ∑ q ∈ Finset.univ.erase p, f q (s'.loc q) (s'.session.pending q) =
      ∑ q ∈ Finset.univ.erase p, f q (s.loc q) (s.session.pending q) := by
    refine Finset.sum_congr rfl fun q hq => ?_
    have hqp := Finset.ne_of_mem_erase hq
    rw [h.loc_of_ne hqp, h.pending_of_ne hqp]
  have split : ∀ t : Threads P S L C Loc Mem, t.tally f =
      f p (t.loc p) (t.session.pending p) +
        ∑ q ∈ Finset.univ.erase p, f q (t.loc q) (t.session.pending q) := fun t =>
    (Finset.add_sum_erase Finset.univ (fun q => f q (t.loc q) (t.session.pending q))
      (Finset.mem_univ p)).symm
  rw [split s, split s', rest]
  omega

end Tally

end Threads

/-! ### Notes -/

section Notes

variable {ω : Type*}

/-- The program that notes each of its computations, and otherwise does the same. -/
def Program.noted (π : Program P S L C Loc Mem) (note : (p : P) → Loc p → Mem → ω → ω) :
    Program P S L C Loc (Mem × ω) := fun p l =>
  match π p l with
  | .call c next => .call c next
  | .compute f => .compute fun x => ((f x.1).1, (f x.1).2, note p l x.1 x.2)
  | .stop => .stop

omit [DecidableEq P] [DecidableEq S] [DecidableEq L] [DecidableEq C] in
theorem Program.noted_call {π : Program P S L C Loc Mem} {note : (p : P) → Loc p → Mem → ω → ω}
    {p : P} {l l' : Loc p} {c : Call P S L C} :
    π.noted note p l = .call c l' ↔ π p l = .call c l' := by
  rw [noted]
  cases π p l <;> simp

omit [DecidableEq P] [DecidableEq S] [DecidableEq L] [DecidableEq C] in
theorem Program.noted_stop {π : Program P S L C Loc Mem} {note : (p : P) → Loc p → Mem → ω → ω}
    {p : P} {l : Loc p} : π.noted note p l = .stop ↔ π p l = .stop := by
  rw [noted]
  cases π p l <;> simp

omit [DecidableEq P] [DecidableEq S] [DecidableEq L] [DecidableEq C] in
theorem Program.noted_compute {π : Program P S L C Loc Mem} {note : (p : P) → Loc p → Mem → ω → ω}
    {p : P} {l : Loc p} {g : Mem × ω → Loc p × Mem × ω} :
    π.noted note p l = .compute g ↔
      ∃ f, π p l = .compute f ∧ g = fun x => ((f x.1).1, (f x.1).2, note p l x.1 x.2) := by
  rw [noted]
  cases π p l <;> simp [eq_comm]

namespace Threads

/-- The state without the notes. -/
def forget (s : Threads P S L C Loc (Mem × ω)) : Threads P S L C Loc Mem :=
  ⟨s.session, s.loc, s.mem.1⟩

/-- The state with notes beside the memory. -/
def noting (s : Threads P S L C Loc Mem) (o : ω) : Threads P S L C Loc (Mem × ω) :=
  ⟨s.session, s.loc, (s.mem, o)⟩

variable {π : Program P S L C Loc Mem} {note : (p : P) → Loc p → Mem → ω → ω}

theorem Step.noting {s s' : Threads P S L C Loc Mem} {p : P} (h : s.Step π p s') (o : ω) :
    ∃ o', (s.noting o).Step (π.noted note) p (s'.noting o') := by
  cases h with
  | compute outside h =>
      exact ⟨_, .compute (s := s.noting o) outside (Program.noted_compute.mpr ⟨_, h, rfl⟩)⟩
  | block outside h used blocked =>
      exact ⟨o, .block (s := s.noting o) outside (Program.noted_call.mpr h) used blocked⟩
  | pass outside h used returned =>
      exact ⟨o, .pass (s := s.noting o) outside (Program.noted_call.mpr h) used returned⟩
  | wake inside awake h =>
      exact ⟨o, .wake (s := s.noting o) inside awake (Program.noted_call.mpr h)⟩

theorem Step.forget {s s' : Threads P S L C Loc (Mem × ω)} {p : P}
    (h : s.Step (π.noted note) p s') : s.forget.Step π p s'.forget := by
  cases h with
  | compute outside h =>
      obtain ⟨f, hf, rfl⟩ := Program.noted_compute.mp h
      exact .compute (s := s.forget) outside hf
  | block outside h used blocked =>
      exact .block (s := s.forget) outside (Program.noted_call.mp h) used blocked
  | pass outside h used returned =>
      exact .pass (s := s.forget) outside (Program.noted_call.mp h) used returned
  | wake inside awake h =>
      exact .wake (s := s.forget) inside awake (Program.noted_call.mp h)

/-- Notes block nothing: every reachable state is reached with notes. -/
theorem reachable_noting {start s : Threads P S L C Loc Mem} (o₀ : ω)
    (h : (π.system start).Reachable s) :
    ∃ o, ((π.noted note).system (start.noting o₀)).Reachable (s.noting o) := by
  induction h with
  | init h => exact ⟨o₀, .init (congrArg (noting · o₀) h)⟩
  | step _ h ih =>
      obtain ⟨o, ho⟩ := ih
      exact (Step.noting h o).imp fun o' h' => ho.step h'

/-- Notes add nothing: without them a reachable state is a reachable state. -/
theorem reachable_forget {start : Threads P S L C Loc Mem} {o₀ : ω}
    {s : Threads P S L C Loc (Mem × ω)}
    (h : ((π.noted note).system (start.noting o₀)).Reachable s) :
    (π.system start).Reachable s.forget := by
  induction h with
  | init h => exact .init (congrArg forget h)
  | step _ h ih => exact ih.step h.forget

end Threads

end Notes

end DlxOs.Monitors
