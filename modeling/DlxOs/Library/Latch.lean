import DlxOs.Library.Threads

/-!
# Semaphores that count down

A semaphore that starts with `1 - k` lets nobody through before it has been
signalled `k` times. A process that waits on it to the end therefore knows that
all the signals have been given. When every process of a program signals it
once, the signals that are missing are the processes that have not done so.
-/

namespace DlxOs.Monitors

open Monitor Session

variable {P S L C : Type*}

/-- As long as `k` signals are missing, the count says so and every caller sleeps. -/
def Session.Latched (σ : Session P S L C) (s : S) (k : ℕ) : Prop :=
  0 < k → σ.mon.count s = 1 - k ∧ ∀ q, σ.pending q = some (.semWait s) → q ∈ σ.mon.waiting (.sem s)

/-- A signal on semaphore `s`. -/
def Event.Signals (s : S) : Event P S L C → Prop
  | .call _ (.semSignal t) _ => t = s
  | _ => False

/-- A wait on semaphore `s` is over. -/
def Event.Passes (s : S) : Event P S L C → Prop
  | .call _ (.semWait t) (.returned true) => t = s
  | .ret _ (.semWait t) => t = s
  | _ => False

variable [DecidableEq P] [DecidableEq S] [DecidableEq L] [DecidableEq C] {σ σ' : Session P S L C}
  {p : P} {s : S} {k : ℕ} {e : Event P S L C}

namespace Session

/-- What is not a signal leaves as many signals missing. -/
theorem Latched.step (h : σ.Latched s k) (hu : σ.inuse (.sem s) = true) (hs : σ.Step e σ')
    (he : ¬ e.Signals s) : σ'.Latched s k := by
  intro hk
  obtain ⟨hcount, hwait⟩ := h hk
  cases hs with
  | @newSem t n ht =>
      have hne : s ≠ t := by
        rintro rfl
        rw [hu] at ht
        cases ht
      exact ⟨(setCount_of_ne _ _ _ hne).trans hcount, hwait⟩
  | @call p c hp hc =>
      by_cases ht : c.target = .sem s
      · obtain rfl : c = .semWait s := by
          cases c with
          | semWait t => cases ht; rfl
          | semSignal t => cases ht; exact absurd rfl he
          | _ => cases ht
        have hblock : σ.mon.call p (.semWait s) = (.blocked, σ.mon.enqueue (.sem s) p) := by
          simp [Monitor.call, show σ.mon.count s ≤ 0 by omega]
        simp only [perform, hblock, if_true]
        refine ⟨hcount, fun q hq => ?_⟩
        rw [enqueue_self]
        by_cases e : q = p
        · simp [e]
        · rw [Function.update_of_ne e] at hq
          exact List.mem_append_left _ (hwait q hq)
      · obtain ⟨hwait', hcount'⟩ := (call_cases σ.mon p c).sem_other ht
        refine ⟨hcount'.trans hcount, fun q hq => ?_⟩
        have hq : σ.pending q = some (.semWait s) := by
          simp only [perform] at hq
          split_ifs at hq
          · by_cases e : q = p
            · subst e
              rw [Function.update_self] at hq
              exact absurd (Option.some.inj hq ▸ rfl) ht
            · rwa [Function.update_of_ne e] at hq
          · exact hq
        exact hwait' ▸ hwait q hq
  | @ret p c hp ha =>
      refine ⟨hcount, fun q hq => hwait q ?_⟩
      by_cases e : q = p
      · simp [finish, e] at hq
      · simpa [finish, e] using hq
  | _ => exact ⟨hcount, hwait⟩

/-- A signal is one of those that were missing. -/
theorem Latched.signal (h : σ.Latched s (k + 1)) : (σ.perform p (.semSignal s)).Latched s k := by
  intro hk
  obtain ⟨hcount, hwait⟩ := h (Nat.succ_pos k)
  have hcall : σ.mon.call p (.semSignal s) =
      (.returned true, σ.mon.setCount s (σ.mon.count s + 1)) := by
    simp only [Monitor.call]
    split
    · rfl
    · rw [if_neg (by omega)]
  simp only [perform, hcall]
  exact ⟨by rw [setCount_self]; omega, hwait⟩

/-- Nobody gets through while signals are missing. -/
theorem Latched.passes (h : σ.Latched s k) (hs : σ.Step e σ') (he : e.Passes s) : k = 0 := by
  by_contra hk
  obtain ⟨hcount, hwait⟩ := h (Nat.pos_of_ne_zero hk)
  cases hs with
  | @call p c hp hc =>
      cases c with
      | semWait t =>
          have hblock : (σ.mon.call p (.semWait t)).1 = .returned true → t ≠ s := by
            rintro hr rfl
            simp [Monitor.call, show σ.mon.count t ≤ 0 by omega] at hr
          generalize (σ.mon.call p (.semWait t)).1 = o at he hblock
          cases o with
          | blocked => exact he
          | returned ok => cases ok with
            | true => exact hblock rfl he
            | false => exact he
      | _ => exact he
  | @ret p c hp ha =>
      cases c with
      | semWait t =>
          obtain rfl : t = s := he
          exact ha _ (hwait p hp)
      | _ => exact he
  | _ => exact he

end Session

/-! ### One signal from each process -/

section Marks

variable {P S L C : Type*} {Loc : P → Type*} {Mem : Type*}

/-- What an action does to the mark that its process has signalled semaphore `s`. -/
def Action.Marks {Loc : Type*} (s : S) (signalled : Loc → Bool) (l : Loc) :
    Action P S L C Loc Mem → Prop
  | .call c next =>
    (c = .semSignal s → signalled l = false ∧ signalled next = true) ∧
      (c ≠ .semSignal s → signalled next = signalled l)
  | .compute f => ∀ x, signalled (f x).1 = signalled l
  | .stop => True

/-- Every process signals semaphore `s` at most once on its way through its program. -/
def SignalsOnce (π : Program P S L C Loc Mem) (s : S) (signalled : (p : P) → Loc p → Bool) : Prop :=
  ∀ p l, (π p l).Marks s (signalled p) l

/-- Notes beside the memory signal nothing. -/
theorem SignalsOnce.noted {ω : Type*} {π : Program P S L C Loc Mem} {s : S}
    {signalled : (p : P) → Loc p → Bool} (h : SignalsOnce π s signalled)
    (note : (p : P) → Loc p → Mem → ω → ω) : SignalsOnce (π.noted note) s signalled := by
  intro p l
  have hpl := h p l
  rw [Program.noted]
  cases act : π p l with
  | call c next => rwa [act] at hpl
  | compute f =>
      rw [act] at hpl
      exact fun x => hpl x.1
  | stop => trivial

/-- The processes that have not signalled yet. -/
def missing [Fintype P] (signalled : (p : P) → Loc p → Bool) (loc : (p : P) → Loc p) : Finset P :=
  Finset.univ.filter fun p => signalled p (loc p) = false

variable [DecidableEq P] [Fintype P] {signalled : (p : P) → Loc p → Bool}

theorem missing_keep {loc : (p : P) → Loc p} {p : P} {l : Loc p}
    (hl : signalled p l = signalled p (loc p)) :
    missing signalled (Function.update loc p l) = missing signalled loc := by
  ext q
  by_cases e : q = p
  · subst e
    simp [missing, hl]
  · simp [missing, e]

theorem missing_signal {loc : (p : P) → Loc p} {p : P} {l : Loc p}
    (h₀ : signalled p (loc p) = false) (h₁ : signalled p l = true) :
    (missing signalled loc).card = (missing signalled (Function.update loc p l)).card + 1 := by
  have hp : p ∈ missing signalled loc := by simp [missing, h₀]
  have he : missing signalled (Function.update loc p l) = (missing signalled loc).erase p := by
    ext q
    by_cases e : q = p
    · subst e
      simp [missing, h₁]
    · simp [missing, e]
  rw [he, Finset.card_erase_add_one hp]

end Marks

end DlxOs.Monitors
