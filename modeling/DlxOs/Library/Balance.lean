import DlxOs.Library.Threads
import Mathlib.Tactic.Linarith
import Mathlib.Tactic.Zify

/-!
# Semaphore counts of threads

How often a process has waited at a semaphore and signalled it can be read off
its local state. The count of the semaphore then is its first value, plus the
signals, minus the waits, plus the waits that still sleep.
-/

namespace DlxOs.Monitors

open Monitor Session Transition

variable {P S L C : Type*} {Loc : P → Type*} {Mem : Type*} [DecidableEq P] [DecidableEq S]
  [DecidableEq L] [DecidableEq C]

/-- The local states tell how often semaphore `s` has been signalled and waited at. -/
structure Program.Counts (π : Program P S L C Loc Mem) (s : S)
    (posted taken : (p : P) → Loc p → ℕ) : Prop where
  call : ∀ p l c l', π p l = .call c l' →
    posted p l' = posted p l + (if c = .semSignal s then 1 else 0) ∧
      taken p l' = taken p l + (if c = .semWait s then 1 else 0)
  compute : ∀ p l f m, π p l = .compute f →
    posted p (f m).1 = posted p l ∧ taken p (f m).1 = taken p l

/-- A call changes the count and the queue of a semaphore by what it is. -/
theorem CallCase.sem_count {m m' : Monitor P S L C} {p : P} {c : Call P S L C} {r : Outcome}
    (h : CallCase m p c r m') (s : S) :
    m'.count s + (if c = .semWait s then 1 else 0) + (m.waiting (.sem s)).length =
      m.count s + (if c = .semSignal s then 1 else 0) + (m'.waiting (.sem s)).length := by
  by_cases hc : c.target = .sem s
  · cases h with
    | semTake t h =>
        cases hc
        simp
    | semSleep t h =>
        cases hc
        simp
        omega
    | semCount t h =>
        cases hc
        simp
    | semWake t h hq =>
        cases hc
        simp [hq]
        omega
    | _ => cases hc
  · obtain ⟨hq, hn⟩ := h.sem_other hc
    have hw : c ≠ .semWait s := fun e => hc (by rw [e]; rfl)
    have hp : c ≠ .semSignal s := fun e => hc (by rw [e]; rfl)
    simp [hq, hn, hw, hp]

/-- No call takes a count below zero. -/
theorem CallCase.count_nonneg {m m' : Monitor P S L C} {p : P} {c : Call P S L C} {r : Outcome}
    (h : CallCase m p c r m') {s : S} (hs : 0 ≤ m.count s) : 0 ≤ m'.count s := by
  by_cases hc : c.target = .sem s
  · cases h with
    | semTake t h =>
        cases hc
        simp
        omega
    | semCount t h =>
        cases hc
        simp
        omega
    | semSleep t h => exact hs
    | semWake t h hq => exact hs
    | _ => cases hc
  · rw [(h.sem_other hc).2]
    exact hs

namespace Threads

variable {π : Program P S L C Loc Mem} {t t' start : Threads P S L C Loc Mem} {p : P} {s : S}
  {posted taken : (p : P) → Loc p → ℕ}

/-- Counts that start at zero or above stay there. -/
theorem reachable_count_nonneg (hs : 0 ≤ start.session.mon.count s)
    (h : (π.system start).Reachable t) : 0 ≤ t.session.mon.count s := by
  refine h.invariant (P := fun t => 0 ≤ t.session.mon.count s) (fun t (e : t = start) => ?_)
    fun t p t' _ ih h => ?_
  · rw [e]
    exact hs
  · cases h with
    | compute => exact ih
    | block => exact (call_cases _ _ _).count_nonneg ih
    | pass => exact (call_cases _ _ _).count_nonneg ih
    | wake => exact ih

variable [Fintype P]

/-- The signals made so far. -/
def posts (posted : (p : P) → Loc p → ℕ) (t : Threads P S L C Loc Mem) : ℕ :=
  t.tally fun p l _ => posted p l

/-- The waits begun so far. -/
def waits (s : S) (taken : (p : P) → Loc p → ℕ) (t : Threads P S L C Loc Mem) : ℕ :=
  t.tally fun p l c => taken p l + if c = some (.semWait s) then 1 else 0

/-- The count is what it was at first, with the signals and without the waits that do not sleep. -/
def Balanced (s : S) (posted taken : (p : P) → Loc p → ℕ) (n : ℤ) (t : Threads P S L C Loc Mem) :
    Prop :=
  t.session.mon.count s + t.waits s taken =
    n + t.posts posted + (t.session.mon.waiting (.sem s)).length

omit [Fintype P] in
/-- What a step does to the count, to the queue and to where its process is. -/
theorem Step.balance (hs : t.Coherent π) (hc : π.Counts s posted taken) (h : t.Step π p t') :
    t'.session.mon.count s + taken p (t'.loc p) +
        (if t'.session.pending p = some (.semWait s) then 1 else 0) + posted p (t.loc p) +
        (t.session.mon.waiting (.sem s)).length =
      t.session.mon.count s + taken p (t.loc p) +
        (if t.session.pending p = some (.semWait s) then 1 else 0) + posted p (t'.loc p) +
        (t'.session.mon.waiting (.sem s)).length := by
  cases h with
  | @compute f outside h =>
      obtain ⟨e, e'⟩ := hc.compute p _ f t.mem h
      simp only [setLoc_self, setLoc_session, e, e']
      rfl
  | @block c l outside h used blocked =>
      have hn := (call_cases t.session.mon p c).sem_count s
      have hs : c ≠ .semSignal s := by
        rintro rfl
        have hcase := call_cases t.session.mon p (.semSignal s)
        rw [blocked] at hcase
        cases hcase
      simp only [call_loc, call_session, perform, blocked, if_true, Function.update_self, outside,
        Option.some.injEq, reduceCtorEq, if_false, if_neg hs] at hn ⊢
      omega
  | @pass c l r outside h used returned =>
      have hn := (call_cases t.session.mon p c).sem_count s
      obtain ⟨e, e'⟩ := hc.call p _ c l h
      simp only [setLoc_self, setLoc_session, call_session, perform, returned, reduceCtorEq,
        if_false, outside, e, e', Nat.cast_add, Nat.cast_ite, Nat.cast_one, Nat.cast_zero] at hn ⊢
      linarith
  | @wake c l inside awake h =>
      obtain ⟨e, e'⟩ := hc.call p _ c l h
      have hs : c ≠ .semSignal s := by
        rintro rfl
        exact hs.sound.sleeps p _ inside rfl
      simp only [setLoc_self, setLoc_session, wake_session, finish, inside, Function.update_self,
        Option.some.injEq, reduceCtorEq, if_false, e, e', if_neg hs, Nat.cast_add, Nat.cast_ite,
        Nat.cast_one, Nat.cast_zero]
      linarith

theorem Balanced.step {n : ℤ} (hs : t.Coherent π) (hc : π.Counts s posted taken)
    (ht : t.Balanced s posted taken n) (h : t.Step π p t') : t'.Balanced s posted taken n := by
  have hp := h.tally fun p l _ => posted p l
  have hw := h.tally fun p l c => taken p l + if c = some (.semWait s) then 1 else 0
  have hb := h.balance hs hc
  have ht' : t.session.mon.count s + t.waits s taken =
    n + t.posts posted + (t.session.mon.waiting (.sem s)).length := ht
  change t'.posts posted + _ = t.posts posted + _ at hp
  change t'.waits s taken + _ = t.waits s taken + _ at hw
  change t'.session.mon.count s + t'.waits s taken =
    n + t'.posts posted + (t'.session.mon.waiting (.sem s)).length
  zify at hp hw
  linarith

/-- When nothing has been signalled or waited for at the start, the count adds up ever after. -/
theorem reachable_balanced (fresh : start.Fresh) (hc : π.Counts s posted taken)
    (hp : ∀ p, posted p (start.loc p) = 0) (ht : ∀ p, taken p (start.loc p) = 0)
    (h : (π.system start).Reachable t) :
    t.Balanced s posted taken (start.session.mon.count s) := by
  refine h.invariant (fun t (e : t = start) => ?_) fun t p t' hr ih h => ?_
  · subst e
    simp [Balanced, waits, posts, tally, hp, ht, fresh.pending, fresh.waiting]
  · exact ih.step (reachable_coherent fresh hr) hc h

/-- Whoever is in the queue of a semaphore has begun to wait at it. -/
theorem Coherent.queue_length_le (ht : t.Coherent π) :
    (t.session.mon.waiting (.sem s)).length ≤
      ∑ p, if t.session.pending p = some (.semWait s) then 1 else 0 := by
  rw [Finset.sum_boole, Nat.cast_id, ← List.toFinset_card_of_nodup (ht.sound.nodup _)]
  refine Finset.card_le_card fun p hp => ?_
  obtain ⟨c, hc, e⟩ := ht.sound.pending _ p (List.mem_toFinset.mp hp)
  refine Finset.mem_filter.mpr ⟨Finset.mem_univ p, ?_⟩
  cases c with
  | semWait u => cases e; exact hc
  | _ => cases e

/-- When everybody inside a wait sleeps, the queue of the semaphore is all of them. -/
theorem Coherent.queue_length_eq (ht : t.Coherent π)
    (asleep : ∀ p, t.session.pending p = some (.semWait s) → ¬ t.session.Awake p) :
    (t.session.mon.waiting (.sem s)).length =
      ∑ p, if t.session.pending p = some (.semWait s) then 1 else 0 := by
  refine ht.queue_length_le.antisymm ?_
  rw [Finset.sum_boole, Nat.cast_id, ← List.toFinset_card_of_nodup (ht.sound.nodup _)]
  refine Finset.card_le_card fun p hp => ?_
  have hp := (Finset.mem_filter.mp hp).2
  obtain ⟨w, hw⟩ := not_forall_not.mp (asleep p hp)
  obtain ⟨c, hc, e⟩ := ht.sound.pending _ p hw
  obtain rfl : c = .semWait s := Option.some.inj (hc.symm.trans hp)
  obtain rfl : WaitPoint.sem s = w := Option.some.inj e
  exact List.mem_toFinset.mpr hw

theorem waits_eq (t : Threads P S L C Loc Mem) : t.waits s taken =
    ∑ p, taken p (t.loc p) + ∑ p, if t.session.pending p = some (.semWait s) then 1 else 0 :=
  Finset.sum_add_distrib

/-- No more waits have come through than the first value and the signals allow. -/
theorem sum_taken_le (fresh : start.Fresh) (hc : π.Counts s posted taken)
    (hp : ∀ p, posted p (start.loc p) = 0) (ht : ∀ p, taken p (start.loc p) = 0)
    (h0 : 0 ≤ start.session.mon.count s) (h : (π.system start).Reachable t) :
    ((∑ p, taken p (t.loc p) : ℕ) : ℤ) ≤
      start.session.mon.count s + (∑ p, posted p (t.loc p) : ℕ) := by
  have hb : t.session.mon.count s + t.waits s taken = start.session.mon.count s +
    (∑ p, posted p (t.loc p) : ℕ) + (t.session.mon.waiting (.sem s)).length :=
    reachable_balanced fresh hc hp ht h
  have hq := (reachable_coherent fresh h).queue_length_le (s := s)
  have hn := reachable_count_nonneg h0 h
  rw [waits_eq] at hb
  omega

/-- When somebody sleeps at the semaphore and everybody inside a wait at it does, as many waits have
come through as the first value and the signals allow. -/
theorem sum_taken_eq (fresh : start.Fresh) (hc : π.Counts s posted taken)
    (hp : ∀ p, posted p (start.loc p) = 0) (ht : ∀ p, taken p (start.loc p) = 0)
    (h0 : 0 ≤ start.session.mon.count s) (h : (π.system start).Reachable t)
    (asleep : ∀ p, t.session.pending p = some (.semWait s) → ¬ t.session.Awake p)
    (hq : t.session.mon.waiting (.sem s) ≠ []) :
    ((∑ p, taken p (t.loc p) : ℕ) : ℤ) =
      start.session.mon.count s + (∑ p, posted p (t.loc p) : ℕ) := by
  have hs := reachable_coherent fresh h
  have hb : t.session.mon.count s + t.waits s taken = start.session.mon.count s +
    (∑ p, posted p (t.loc p) : ℕ) + (t.session.mon.waiting (.sem s)).length :=
    reachable_balanced fresh hc hp ht h
  have hl := hs.queue_length_eq asleep
  have hn := reachable_count_nonneg h0 h
  have hz : ¬ 0 < t.session.mon.count s := fun hpos => hq (hs.sound.spent s hpos)
  rw [waits_eq] at hb
  omega

end Threads

end DlxOs.Monitors
