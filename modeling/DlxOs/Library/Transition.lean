import Mathlib.Algebra.GroupWithZero.Nat
import Mathlib.Tactic.Common

/-!
# Labelled transition systems with observers

A system has initial states and labelled steps. An observer reads the steps of
a run and keeps a value of its own; the observed system carries that value
beside the state and never restricts a step. Invariants and simulations are
each reduced here to one condition on steps.
-/

namespace DlxOs.Transition

variable {σ τ ε ω : Type*}

/-- A transition system over states `σ` with events `ε` on its steps. -/
structure System (σ ε : Type*) where
  Init : σ → Prop
  Step : σ → ε → σ → Prop

/-- The states that finitely many steps lead to from an initial state. -/
inductive System.Reachable (M : System σ ε) : σ → Prop
  | init {s} (h : M.Init s) : M.Reachable s
  | step {s e s'} (tail : M.Reachable s) (h : M.Step s e s') : M.Reachable s'

/-- A finite run lists the events of its steps in order. -/
inductive System.Run (M : System σ ε) : σ → List ε → σ → Prop
  | nil (s) : M.Run s [] s
  | cons {s e s' es t} (h : M.Step s e s') (tail : M.Run s' es t) : M.Run s (e :: es) t

/-- A run starts in the states of `M` and ends in them. -/
theorem System.Reachable.run {M : System σ ε} {s t : σ} {es : List ε}
    (hs : M.Reachable s) (run : M.Run s es t) : M.Reachable t := by
  induction run with
  | nil s => exact hs
  | cons h _ ih => exact ih (hs.step h)

theorem System.Run.append {M : System σ ε} {s t u : σ} {es fs : List ε}
    (first : M.Run s es t) (second : M.Run t fs u) : M.Run s (es ++ fs) u := by
  induction first with
  | nil s => exact second
  | cons h _ ih => exact .cons h (ih second)

theorem System.Run.single {M : System σ ε} {s t : σ} {e : ε} (h : M.Step s e t) :
    M.Run s [e] t :=
  .cons h (.nil t)

/-- A property of the initial states that every step keeps holds in every reachable state. -/
theorem System.Reachable.invariant {M : System σ ε} {P : σ → Prop}
    (init : ∀ s, M.Init s → P s)
    (step : ∀ s e s', M.Reachable s → P s → M.Step s e s' → P s')
    {s : σ} (h : M.Reachable s) : P s := by
  induction h with
  | init h => exact init _ h
  | step tail h ih => exact step _ _ _ tail ih h

/-- Along a run, a property that each step keeps as long as its events satisfy `E` survives. -/
theorem System.Run.invariant {M : System σ ε} {P : σ → Prop} {E : ε → Prop}
    (step : ∀ s e s', P s → E e → M.Step s e s' → P s')
    {s t : σ} {es : List ε} (run : M.Run s es t) (hs : P s) (he : ∀ e ∈ es, E e) : P t := by
  induction run with
  | nil s => exact hs
  | cons h _ ih =>
      exact ih (step _ _ _ hs (he _ (by simp)) h) fun e hm => he e (by simp [hm])

/-- A countdown that every step brings down by its cost is over before it is exceeded. -/
theorem System.Run.countdown {M : System σ ε} {cost : ε → ℕ} {left : σ → ℕ → Prop}
    (step : ∀ s e s' k, left s (k + 1) → M.Step s e s' → ∃ j, left s' j ∧ j + cost e ≤ k + 1)
    {s t : σ} {es : List ε} (run : M.Run s es t) {k : ℕ} (h : left s k)
    (hk : k ≤ (es.map cost).sum) :
    ∃ es₁ es₂ u, es = es₁ ++ es₂ ∧ M.Run s es₁ u ∧ M.Run u es₂ t ∧
      (es₁.map cost).sum ≤ k ∧ left u 0 := by
  induction run generalizing k with
  | nil s =>
      obtain rfl : k = 0 := by simpa using hk
      exact ⟨[], [], s, rfl, .nil s, .nil s, by simp, h⟩
  | @cons s e s' es t first tail ih =>
      cases k with
      | zero => exact ⟨[], e :: es, s, rfl, .nil s, .cons first tail, by simp, h⟩
      | succ k =>
          obtain ⟨j, hj, hle⟩ := step s e s' k h first
          rw [List.map_cons, List.sum_cons] at hk
          obtain ⟨es₁, es₂, u, rfl, run₁, run₂, hsum, hu⟩ := ih hj (by omega)
          refine ⟨e :: es₁, es₂, u, rfl, .cons first run₁, run₂, ?_, hu⟩
          rw [List.map_cons, List.sum_cons]
          omega

/-- The system with only those steps that `E` admits. -/
def System.restrict (M : System σ ε) (E : σ → ε → Prop) : System σ ε where
  Init := M.Init
  Step s e s' := M.Step s e s' ∧ E s e

theorem System.Reachable.unrestricted {M : System σ ε} {E : σ → ε → Prop} {s : σ}
    (h : (M.restrict E).Reachable s) : M.Reachable s := by
  induction h with
  | init h => exact .init h
  | step _ h ih => exact ih.step h.1

theorem System.Run.unrestricted {M : System σ ε} {E : σ → ε → Prop} {s t : σ} {es : List ε}
    (run : (M.restrict E).Run s es t) : M.Run s es t := by
  induction run with
  | nil s => exact .nil s
  | cons h _ ih => exact .cons h.1 ih

/-- Admitting more steps keeps the reachable states. -/
theorem System.Reachable.weaken {M : System σ ε} {E F : σ → ε → Prop}
    (hE : ∀ s e, E s e → F s e) {s : σ} (h : (M.restrict E).Reachable s) :
    (M.restrict F).Reachable s := by
  induction h with
  | init h => exact .init h
  | step _ h ih => exact ih.step ⟨h.1, hE _ _ h.2⟩

theorem System.Run.weaken {M : System σ ε} {E F : σ → ε → Prop}
    (hE : ∀ s e, E s e → F s e) {s t : σ} {es : List ε} (run : (M.restrict E).Run s es t) :
    (M.restrict F).Run s es t := by
  induction run with
  | nil s => exact .nil s
  | cons h _ ih => exact .cons ⟨h.1, hE _ _ h.2⟩ ih

/-- The system with an observer's value beside each state. -/
def System.observe (M : System σ ε) (start : ω) (update : ω → σ → ε → σ → ω) :
    System (σ × ω) ε where
  Init s := M.Init s.1 ∧ s.2 = start
  Step s e s' := M.Step s.1 e s'.1 ∧ s'.2 = update s.2 s.1 e s'.1

/-- Forgetting the observer leaves a reachable state of the system. -/
theorem System.Reachable.unobserved {M : System σ ε} {start : ω}
    {update : ω → σ → ε → σ → ω} {s : σ × ω}
    (h : (M.observe start update).Reachable s) : M.Reachable s.1 := by
  induction h with
  | init h => exact .init h.1
  | step _ h ih => exact ih.step h.1

/-- Every reachable state is reached under observation: the observer blocks nothing. -/
theorem System.Reachable.observed {M : System σ ε} {s : σ} (h : M.Reachable s)
    (start : ω) (update : ω → σ → ε → σ → ω) :
    ∃ o, (M.observe start update).Reachable (s, o) := by
  induction h with
  | init h => exact ⟨start, .init ⟨h, rfl⟩⟩
  | @step s e s' _ h ih =>
      obtain ⟨o, ho⟩ := ih
      exact ⟨update o s e s', ho.step ⟨h, rfl⟩⟩

/-- A forward simulation: related states stay related, each step being matched by a run. -/
theorem System.Reachable.simulation {M : System σ ε} {N : System τ ω} {R : σ → τ → Prop}
    (init : ∀ s, M.Init s → ∃ t, N.Init t ∧ R s t)
    (step : ∀ s e s' t, R s t → M.Step s e s' → ∃ es t', N.Run t es t' ∧ R s' t')
    {s : σ} (h : M.Reachable s) : ∃ t, N.Reachable t ∧ R s t := by
  induction h with
  | init h =>
      obtain ⟨t, ht, hr⟩ := init _ h
      exact ⟨t, .init ht, hr⟩
  | step _ h ih =>
      obtain ⟨t, ht, hr⟩ := ih
      obtain ⟨es, t', run, hr'⟩ := step _ _ _ _ hr h
      exact ⟨t', ht.run run, hr'⟩

end DlxOs.Transition
