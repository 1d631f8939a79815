import DlxOs.Library.Transition
import Mathlib.Data.Nat.Pairing
import Mathlib.Logic.Encodable.Basic

/-!
# Fair executions

An execution goes on for ever; at times nothing happens in it. It is fair when
no agent that can act from some time on is passed over for ever. What is bound
to happen in every fair execution is shown by a measure that never grows and
falls whenever some agent acts that is able to until it does.

## Main results

* `Execution.Fair.leadsTo`: the rule for one measure.
* `Execution.LeadsTo.descend`: a quantity that falls again and again reaches its
  end.
* `System.exists_fair`: every system has fair executions.

## Implementation notes

That an agent can act is a condition of its own and not derived from the steps,
so that a system can be observed from a larger one that runs it.
-/

namespace DlxOs.Transition

variable {σ ε α : Type*} {M : System σ ε}

/-- An infinite execution; `none` is a time at which nothing happens. -/
structure System.Execution (M : System σ ε) where
  state : ℕ → σ
  event : ℕ → Option ε
  init : M.Init (state 0)
  still : ∀ n, event n = none → state (n + 1) = state n
  step : ∀ n e, event n = some e → M.Step (state n) e (state (n + 1))

namespace System.Execution

/-- Whoever is able to act from some time on acts at some time after. -/
def Fair (x : M.Execution) (able : α → σ → Prop) (acts : α → ε → Prop) : Prop :=
  ∀ a n, (∀ m ≥ n, able a (x.state m)) → ∃ m ≥ n, ∃ e, x.event m = some e ∧ acts a e

/-- After each state with the one property comes a state with the other. -/
def LeadsTo (x : M.Execution) (P Q : σ → Prop) : Prop :=
  ∀ n, P (x.state n) → ∃ m ≥ n, Q (x.state m)

variable {x : M.Execution} {P Q R : σ → Prop} {able : α → σ → Prop} {acts : α → ε → Prop}

theorem reachable (x : M.Execution) (n : ℕ) : M.Reachable (x.state n) := by
  induction n with
  | zero => exact .init x.init
  | succ n ih =>
      cases he : x.event n with
      | none => exact (x.still n he).symm ▸ ih
      | some e => exact ih.step (x.step n e he)

/-- What every step keeps lasts. -/
theorem lasts (keeps : ∀ s e t, M.Reachable s → P s → M.Step s e t → P t) {n m : ℕ} (h : n ≤ m)
    (hn : P (x.state n)) : P (x.state m) := by
  induction m, h using Nat.le_induction with
  | base => exact hn
  | succ m _ ih =>
      cases he : x.event m with
      | none => exact (x.still m he).symm ▸ ih
      | some e => exact keeps _ e _ (x.reachable m) ih (x.step m e he)

namespace LeadsTo

theorem of_imp (h : ∀ s, M.Reachable s → P s → Q s) : x.LeadsTo P Q := fun n hn =>
  ⟨n, le_rfl, h _ (x.reachable n) hn⟩

theorem trans (first : x.LeadsTo P Q) (second : x.LeadsTo Q R) : x.LeadsTo P R := by
  intro n hn
  obtain ⟨m, hm, hq⟩ := first n hn
  obtain ⟨k, hk, hr⟩ := second m hq
  exact ⟨k, hm.le.trans hk, hr⟩

/-- To go on from what has not come to its end yet. -/
theorem or_trans {A : σ → Prop} (first : x.LeadsTo P fun s => A s ∨ Q s)
    (second : x.LeadsTo Q fun s => A s ∨ R s) : x.LeadsTo P fun s => A s ∨ R s := by
  intro n hn
  obtain ⟨m, hm, ha | hq⟩ := first n hn
  · exact ⟨m, hm, .inl ha⟩
  · obtain ⟨k, hk, h⟩ := second m hq
    exact ⟨k, hm.le.trans hk, h⟩

theorem or_end {A : σ → Prop} (first : x.LeadsTo P fun s => A s ∨ Q s) (second : x.LeadsTo Q A) :
    x.LeadsTo P A := by
  intro n hn
  obtain ⟨m, hm, ha | hq⟩ := first n hn
  · exact ⟨m, hm, ha⟩
  · obtain ⟨k, hk, h⟩ := second m hq
    exact ⟨k, hm.le.trans hk, h⟩

/-- What leads to less of a quantity or to an end leads to the end. -/
theorem descend {f : σ → ℕ}
    (less : ∀ k, x.LeadsTo (fun s => P s ∧ f s = k) fun s => Q s ∨ P s ∧ f s < k) :
    x.LeadsTo P Q := by
  intro n hn
  induction hf : f (x.state n) using Nat.strong_induction_on generalizing n with
  | _ k ih =>
      obtain ⟨m, hm, hq | ⟨hp, hlt⟩⟩ := less k n ⟨hn, hf⟩
      · exact ⟨m, hm, hq⟩
      · obtain ⟨j, hj, hq⟩ := ih _ hlt m hp rfl
        exact ⟨j, hm.le.trans hj, hq⟩

end LeadsTo

/-- Why a state with the one property is followed by one with the other: some agent can act until
the measure falls, and when it acts the measure falls. -/
structure Progress (M : System σ ε) (able : α → σ → Prop) (acts : α → ε → Prop) (P Q : σ → Prop)
    (measure : σ → ℕ) (helps : α → σ → Prop) : Prop where
  helper : ∀ s, M.Reachable s → P s → ∃ a, helps a s
  able : ∀ s a, M.Reachable s → P s → helps a s → able a s
  step : ∀ s e t, M.Reachable s → P s → M.Step s e t → Q t ∨ P t ∧ (measure t < measure s ∨
    measure t = measure s ∧ ∀ a, helps a s → helps a t ∧ ¬ acts a e)

/-- The rule: a fair execution comes to what the measure leads to. -/
theorem Fair.leadsTo (fair : x.Fair able acts) {measure : σ → ℕ} {helps : α → σ → Prop}
    (progress : Progress M able acts P Q measure helps) : x.LeadsTo P Q := by
  intro n hn
  induction hk : measure (x.state n) using Nat.strong_induction_on generalizing n with
  | _ k ih =>
      by_contra never
      push Not at never
      have falls : ∀ m ≥ n, P (x.state m) → ¬ measure (x.state m) < k := by
        intro m hm hp hlt
        obtain ⟨j, hj, hq⟩ := ih _ hlt m hp rfl
        exact never j (hm.trans hj) hq
      obtain ⟨a, ha⟩ := progress.helper _ (x.reachable n) hn
      -- The helper goes on to help as long as the measure stays.
      have stays : ∀ m ≥ n, P (x.state m) ∧ measure (x.state m) = k ∧ helps a (x.state m) := by
        intro m hm
        induction m, hm using Nat.le_induction with
        | base => exact ⟨hn, hk, ha⟩
        | succ m hm ih =>
            obtain ⟨hp, hmk, hh⟩ := ih
            cases he : x.event m with
            | none =>
                rw [x.still m he]
                exact ⟨hp, hmk, hh⟩
            | some e =>
                rcases progress.step _ e _ (x.reachable m) hp (x.step m e he) with
                  hq | ⟨hp', hlt | ⟨same, keeps⟩⟩
                · exact absurd hq (never _ (hm.trans m.le_succ))
                · exact absurd (hmk ▸ hlt) (falls _ (hm.trans m.le_succ) hp')
                · exact ⟨hp', same.trans hmk, (keeps a hh).1⟩
      obtain ⟨m, hm, e, he, hacts⟩ := fair a n fun m hm =>
        progress.able _ a (x.reachable m) (stays m hm).1 (stays m hm).2.2
      obtain ⟨hp, hmk, hh⟩ := stays m hm
      rcases progress.step _ e _ (x.reachable m) hp (x.step m e he) with
        hq | ⟨hp', hlt | ⟨-, keeps⟩⟩
      · exact never _ (hm.le.trans m.le_succ) hq
      · exact falls _ (hm.le.trans m.le_succ) hp' (hmk ▸ hlt)
      · exact (keeps a hh).2 hacts

/-- One agent is able to act and acts, or comes to act later. -/
theorem Fair.acts_once (fair : x.Fair able acts) (a : α) (can : ∀ s, M.Reachable s → P s → able a s)
    (step : ∀ s e t, M.Reachable s → P s → M.Step s e t → Q t ∨ P t ∧ ¬ acts a e) :
    x.LeadsTo P Q := by
  suffices progress : Progress M able acts P Q (fun _ => 0) (fun b _ => b = a) from
    fair.leadsTo progress
  constructor
  case helper => exact fun _ _ _ => ⟨a, rfl⟩
  case able => exact fun s b hr hp hb => hb ▸ can s hr hp
  case step =>
    intro s e t hr hp hs
    refine (step s e t hr hp hs).imp_right fun ⟨hp', hacts⟩ => ⟨hp', .inr ⟨rfl, fun b hb => ?_⟩⟩
    exact ⟨hb, hb ▸ hacts⟩

end System.Execution

/-! ### Fair executions exist -/

section Existence

variable (M) (acts : α → ε → Prop)

/-- The state after one turn of an agent, which acts if it can. -/
noncomputable def System.turn (a : Option α) (s : σ) : Option ε × σ :=
  open scoped Classical in
  if h : ∃ b e t, a = some b ∧ acts b e ∧ M.Step s e t then
    (some h.choose_spec.choose, h.choose_spec.choose_spec.choose)
  else (none, s)

/-- Each agent has a turn again and again. -/
noncomputable def System.turns [Encodable α] (s : σ) (n : ℕ) : σ :=
  n.rec s fun n t => (M.turn acts (Encodable.decode (Nat.unpair n).1) t).2

variable {M acts}

theorem System.turn_still {a : Option α} {s : σ} (h : (M.turn acts a s).1 = none) :
    (M.turn acts a s).2 = s := by
  rw [turn] at h ⊢
  split_ifs at h ⊢
  rfl

theorem System.turn_step {a : Option α} {s : σ} {e : ε} (h : (M.turn acts a s).1 = some e) :
    M.Step s e (M.turn acts a s).2 ∧ ∃ b, a = some b ∧ acts b e := by
  rw [turn] at h ⊢
  split_ifs at h ⊢ with he
  obtain rfl := Option.some.inj h
  exact ⟨he.choose_spec.choose_spec.choose_spec.2.2, he.choose,
    he.choose_spec.choose_spec.choose_spec.1, he.choose_spec.choose_spec.choose_spec.2.1⟩

theorem System.turn_acts {a : α} {s t : σ} {e : ε} (ha : acts a e) (h : M.Step s e t) :
    ∃ e', (M.turn acts (some a) s).1 = some e' ∧ acts a e' := by
  have can : ∃ b e t, some a = some b ∧ acts b e ∧ M.Step s e t := ⟨a, e, t, rfl, ha, h⟩
  have some : (M.turn acts (some a) s).1 = some can.choose_spec.choose := by
    rw [turn, dif_pos can]
  obtain ⟨-, b, hb, hacts⟩ := turn_step some
  exact ⟨_, some, Option.some.inj hb ▸ hacts⟩

/-- Agents that can act wherever they are able to have a fair execution. -/
theorem System.exists_fair [Encodable α] {able : α → σ → Prop} {s : σ} (hs : M.Init s)
    (acting : ∀ s a, M.Reachable s → able a s → ∃ e t, acts a e ∧ M.Step s e t) :
    ∃ x : M.Execution, x.state 0 = s ∧ x.Fair able acts := by
  let x : M.Execution :=
    { state := M.turns acts s
      event := fun n => (M.turn acts (Encodable.decode (Nat.unpair n).1) (M.turns acts s n)).1
      init := hs
      still := fun n h => turn_still h
      step := fun n e h => (turn_step h).1 }
  refine ⟨x, rfl, fun a n can => ?_⟩
  have hm : n ≤ Nat.pair (Encodable.encode a) n := Nat.right_le_pair _ _
  obtain ⟨e, t, ha, h⟩ := acting _ a (x.reachable _) (can _ hm)
  refine ⟨Nat.pair (Encodable.encode a) n, hm, ?_⟩
  change ∃ e, (M.turn acts (Encodable.decode (Nat.unpair (Nat.pair _ n)).1) _).1 = some e ∧ acts a e
  rw [Nat.unpair_pair, Encodable.encodek]
  exact turn_acts ha h

/-- Events that can happen one after the other, wherever they have led so far, make up an
execution. -/
theorem System.exists_following {f : ℕ → ε} {I : ℕ → σ → Prop} {s : σ} (hs : M.Init s) (h0 : I 0 s)
    (next : ∀ n s, M.Reachable s → I n s → ∃ t, M.Step s (f n) t ∧ I (n + 1) t) :
    ∃ x : M.Execution, ∀ n, x.event n = some (f n) ∧ I n (x.state n) := by
  choose go steps holds using next
  let state (n : ℕ) : {s // M.Reachable s ∧ I n s} := n.rec ⟨s, .init hs, h0⟩ fun n t =>
    ⟨go n t.1 t.2.1 t.2.2, t.2.1.step (steps n t.1 t.2.1 t.2.2), holds n t.1 t.2.1 t.2.2⟩
  refine ⟨⟨fun n => (state n).1, fun n => some (f n), hs, nofun, fun n e he => ?_⟩,
    fun n => ⟨rfl, (state n).2.2⟩⟩
  obtain rfl := Option.some.inj he
  exact steps n _ (state n).2.1 (state n).2.2

end Existence

/-! ### Simulation -/

/-- A simulation, in which steps may be nothing to the other system, carries over to executions. -/
theorem System.Execution.simulated {τ ζ : Type*} {N : System τ ζ} {R : σ → τ → Prop}
    {f : ε → Option ζ} (x : M.Execution) (init : ∀ s, M.Init s → ∃ t, N.Init t ∧ R s t)
    (step : ∀ s e s' t, N.Reachable t → R s t → M.Step s e s' →
      ∃ t', R s' t' ∧ (f e = none ∧ t' = t ∨ ∃ e', f e = some e' ∧ N.Step t e' t')) :
    ∃ y : N.Execution, ∀ n, R (x.state n) (y.state n) ∧ y.event n = (x.event n).bind f := by
  have next : ∀ n (t : {t // N.Reachable t ∧ R (x.state n) t}),
      ∃ t' : {t // N.Reachable t ∧ R (x.state (n + 1)) t},
        (x.event n).bind f = none ∧ t'.1 = t.1 ∨
          ∃ e', (x.event n).bind f = some e' ∧ N.Step t.1 e' t'.1 := by
    intro n ⟨t, hr, ht⟩
    cases he : x.event n with
    | none => exact ⟨⟨t, hr, (x.still n he).symm ▸ ht⟩, .inl ⟨rfl, rfl⟩⟩
    | some e =>
        obtain ⟨t', ht', ⟨hf, rfl⟩ | ⟨e', hf, hs⟩⟩ := step _ e _ t hr ht (x.step n e he)
        · exact ⟨⟨t', hr, ht'⟩, .inl ⟨hf, rfl⟩⟩
        · exact ⟨⟨t', hr.step hs, ht'⟩, .inr ⟨e', hf, hs⟩⟩
  choose go moves using next
  obtain ⟨t, ht, h0⟩ := init _ x.init
  let state (n : ℕ) : {t // N.Reachable t ∧ R (x.state n) t} := n.rec ⟨t, .init ht, h0⟩ go
  refine ⟨⟨fun n => (state n).1, fun n => (x.event n).bind f, ht, fun n h => ?_, fun n e h => ?_⟩,
    fun n => ⟨(state n).2.2, rfl⟩⟩
  · rcases moves n (state n) with ⟨-, same⟩ | ⟨e', he, -⟩
    · exact same
    · cases he.symm.trans h
  · rcases moves n (state n) with ⟨he, -⟩ | ⟨e', he, hs⟩
    · cases he.symm.trans h
    · obtain rfl := Option.some.inj (he.symm.trans h)
      exact hs

/-! ### Executions after runs -/

/-- The system with one initial state. -/
def System.startingAt (M : System σ ε) (s : σ) : System σ ε where
  Init := (· = s)
  Step := M.Step

theorem System.Reachable.of_startingAt {s t : σ} (hs : M.Reachable s)
    (ht : (M.startingAt s).Reachable t) : M.Reachable t := by
  induction ht with
  | init h => exact h.symm ▸ hs
  | step _ h ih => exact ih.step h

/-- Nothing happens any more. -/
def System.Execution.idle (s : σ) : (M.startingAt s).Execution where
  state _ := s
  event _ := none
  init := rfl
  still _ _ := rfl
  step _ _ h := by cases h

/-- A step before an execution. -/
def System.Execution.cons {s t : σ} {e : ε} (first : M.Step s e t)
    (y : (M.startingAt t).Execution) : (M.startingAt s).Execution where
  state
    | 0 => s
    | n + 1 => y.state n
  event
    | 0 => some e
    | n + 1 => y.event n
  init := rfl
  still n h := by
    cases n with
    | zero => cases h
    | succ n => exact y.still n h
  step n f h := by
    cases n with
    | zero =>
        obtain rfl := Option.some.inj h
        change M.Step s e (y.state 0)
        rwa [show y.state 0 = t from y.init]
    | succ n => exact y.step n f h

/-- A finite run and an execution from its end make up an execution. -/
theorem System.Run.followed {s t : σ} {es : List ε} (run : M.Run s es t) (hs : M.Init s)
    (y : (M.startingAt t).Execution) :
    ∃ (x : M.Execution) (n : ℕ), ∀ m, x.state (n + m) = y.state m ∧
      x.event (n + m) = y.event m := by
  suffices h : ∃ (z : (M.startingAt s).Execution) (n : ℕ), ∀ m, z.state (n + m) = y.state m ∧
      z.event (n + m) = y.event m by
    obtain ⟨z, n, same⟩ := h
    have init : M.Init (z.state 0) := by rwa [show z.state 0 = s from z.init]
    exact ⟨⟨z.state, z.event, init, z.still, z.step⟩, n, same⟩
  clear hs
  induction run with
  | nil s => exact ⟨y, 0, fun m => by simp⟩
  | cons first tail ih =>
      obtain ⟨z, n, same⟩ := ih y
      refine ⟨.cons first z, n + 1, fun m => ?_⟩
      rw [Nat.add_right_comm]
      exact same m

end DlxOs.Transition
