import DlxOs.Library.Sessions
import Mathlib.Data.List.Basic

/-!
# Histories of monitor sessions

Each history is computed from the steps of a session and never restricts one.
It records who holds a lock, the waits made on a semaphore, the processes that
arrived at a condition variable, or how a lock passed on. For each of them one
lemma says what a step preserves.
-/

namespace DlxOs.Monitors

open Monitor Session

variable {P S L C : Type*} [DecidableEq P] [DecidableEq S] [DecidableEq L] [DecidableEq C]

/-- The lock whose owner a call may change. -/
def Monitor.lockOf (m : Monitor P S L C) : Call P S L C → Option L
  | .acquire k => some k
  | .release k => some k
  | .transfer k _ => some k
  | .wait c => some (m.bound c)
  | .signal c => some (m.bound c)
  | _ => none

/-- A call leaves the owners of other locks alone. -/
theorem CallCase.owner_other {m m' : Monitor P S L C} {p : P} {c : Call P S L C} {r : Outcome}
    (h : CallCase m p c r m') {k : L} (hk : m.lockOf c ≠ some k) : m'.owner k = m.owner k := by
  have ne : ∀ {j}, m.lockOf c = some j → k ≠ j := fun hj e => hk (by rw [hj, e])
  cases h with
  | acquireFree j h => exact setOwner_of_ne _ _ _ _ (ne rfl)
  | release j h => exact handOver_owner_of_ne _ (ne rfl)
  | transfer j q h => exact setOwner_of_ne _ _ _ _ (ne rfl)
  | wait d h => exact handOver_owner_of_ne _ (ne rfl)
  | signal d h hq => exact setOwner_of_ne _ _ _ _ (ne rfl)
  | _ => rfl

/-- The event is a transfer of a lock. -/
def Event.IsTransfer : Event P S L C → Prop
  | .call _ (.transfer _ _) _ => True
  | _ => False

/-! ### Locks held -/

/-- Who holds which lock, as the processes know it from the results of their calls. -/
def heldAfter (bound : C → L) (held : P → L → Prop) : Event P S L C → P → L → Prop
  | .call p (.acquire k) (.returned true), q, j => held q j ∨ q = p ∧ j = k
  | .call p (.release k) (.returned true), q, j => held q j ∧ ¬ (q = p ∧ j = k)
  | .call p (.wait c) .blocked, q, j => held q j ∧ ¬ (q = p ∧ j = bound c)
  | .call p (.signal c) .blocked, q, j => held q j ∧ ¬ (q = p ∧ j = bound c)
  | .call p (.signal c) (.returned true), q, j => held q j ∨ q = p ∧ j = bound c
  | .ret p (.acquire k), q, j => held q j ∨ q = p ∧ j = k
  | .ret p (.wait c), q, j => held q j ∨ q = p ∧ j = bound c
  | .ret p (.signal c), q, j => held q j ∨ q = p ∧ j = bound c
  | .exit p, q, j => held q j ∧ q ≠ p
  | _, q, j => held q j

variable {σ σ' : Session P S L C} {e : Event P S L C}

omit [DecidableEq P] [DecidableEq S] [DecidableEq L] [DecidableEq C] in
/-- A process that returns after a sleep returns with the lock of its call. -/
theorem heldAfter_ret {held : P → L → Prop} {bound : C → L} {p q : P} {c : Call P S L C} {k : L}
    (h : heldAfter bound held (.ret p c) q k) :
    held q k ∨ q = p ∧ (∀ m : Monitor P S L C, m.bound = bound → m.granted c = some k) := by
  cases c with
  | acquire j => exact h.imp_right fun e => ⟨e.1, fun _ _ => by rw [e.2]; rfl⟩
  | wait d => exact h.imp_right fun e => ⟨e.1, fun _ hb => by rw [e.2, ← hb]; rfl⟩
  | signal d => exact h.imp_right fun e => ⟨e.1, fun _ hb => by rw [e.2, ← hb]; rfl⟩
  | _ => exact .inl h

/-- What a call does to the locks its caller holds. -/
theorem CallCase.heldAfter {m m' : Monitor P S L C} {p : P} {c : Call P S L C} {r : Outcome}
    (h : CallCase m p c r m') (ht : ¬ (Event.call p c r).IsTransfer) {held : P → L → Prop}
    (hh : ∀ q k, held q k → m.owner k = some q) {q : P} {k : L}
    (hk : heldAfter m.bound held (.call p c r) q k) : m'.owner k = some q := by
  cases h with
  | acquireFree j h =>
      rcases hk with hk | ⟨rfl, rfl⟩
      · have e : k ≠ j := fun e => by rw [← e, hh q k hk] at h; cases h
        rw [setOwner_of_ne _ _ _ _ e]
        exact hh q k hk
      · exact setOwner_self ..
  | acquireOwned j h =>
      rcases hk with hk | ⟨rfl, rfl⟩
      · exact hh q k hk
      · exact h
  | release j h =>
      have e : k ≠ j := fun e => by
        subst e
        have := hh q k hk.1
        rw [h] at this
        exact hk.2 ⟨(Option.some.inj this).symm, rfl⟩
      rw [handOver_owner_of_ne _ e]
      exact hh q k hk.1
  | transferRefused j o h => exact absurd trivial ht
  | transfer j o h => exact absurd trivial ht
  | wait d h =>
      have e : k ≠ m.bound d := fun e => by
        subst e
        have := hh q _ hk.1
        rw [h] at this
        exact hk.2 ⟨(Option.some.inj this).symm, rfl⟩
      rw [handOver_owner_of_ne _ e]
      exact hh q k hk.1
  | signalNone d h hq =>
      rcases hk with hk | ⟨rfl, rfl⟩
      · exact hh q k hk
      · exact h
  | signal d h hq =>
      have e : k ≠ m.bound d := fun e => by
        subst e
        have := hh q _ hk.1
        rw [h] at this
        exact hk.2 ⟨(Option.some.inj this).symm, rfl⟩
      rw [enqueue_owner, setOwner_of_ne _ _ _ _ e]
      exact hh q k hk.1
  | _ => exact hh q k hk

/-- Who holds a lock owns it. -/
theorem heldAfter_owner (h : σ.Sound) (hs : σ.Step e σ') (ht : ¬ e.IsTransfer)
    {held : P → L → Prop} (hh : ∀ p k, held p k → σ.mon.owner k = some p) :
    ∀ p k, heldAfter σ.mon.bound held e p k → σ'.mon.owner k = some p := by
  intro q k hk
  cases hs with
  | idle => exact hh q k hk
  | exit hp => exact hh q k hk.1
  | newSem hw => exact hh q k hk
  | @newLock j hw =>
      have hne : k ≠ j := fun c => by
        have := hh q k hk
        rw [c, h.fresh j hw] at this
        cases this
      exact (setOwner_of_ne _ _ _ _ hne).trans (hh q k hk)
  | newCond hw hj => exact hh q k hk
  | call hp hc => exact (call_cases σ.mon _ _).heldAfter ht hh hk
  | @ret p c hp ha =>
      rcases heldAfter_ret hk with hk | ⟨rfl, hg⟩
      · exact hh q k hk
      · exact h.granted q c k hp ha (hg σ.mon rfl)

/-! ### Ownership between two calls of the owner -/

/-- The event is process `p` giving up lock `k`, or its end. -/
def Event.GivesUp (bound : C → L) (p : P) (k : L) : Event P S L C → Prop
  | .call q (.release j) _ => q = p ∧ j = k
  | .call q (.transfer j _) _ => q = p ∧ j = k
  | .call q (.wait c) _ => q = p ∧ bound c = k
  | .call q (.signal c) _ => q = p ∧ bound c = k
  | .exit q => q = p
  | _ => False

/-- A lock stays with its owner until the owner gives it up. -/
theorem owner_kept (h : σ.Sound) (hs : σ.Step e σ') {p : P} {k : L}
    (ho : σ.mon.owner k = some p) (he : ¬ e.GivesUp σ.mon.bound p k) :
    σ'.mon.owner k = some p := by
  cases hs with
  | @newLock j hw =>
      have hne : k ≠ j := fun c => by
        rw [c, h.fresh j hw] at ho
        cases ho
      exact (setOwner_of_ne _ _ _ _ hne).trans ho
  | @call q c hq hc =>
      have hcase := call_cases σ.mon q c
      by_cases hqp : q = p
      · subst hqp
        by_cases hl : σ.mon.lockOf c = some k
        · cases c with
          | acquire j =>
              cases hl
              have e : (σ.mon.call q (.acquire k)).2 = σ.mon := by simp [Monitor.call, ho]
              exact (congrFun (congrArg Monitor.owner e) k).trans ho
          | release j => exact absurd ⟨rfl, Option.some.inj hl⟩ he
          | transfer j o => exact absurd ⟨rfl, Option.some.inj hl⟩ he
          | wait d => exact absurd ⟨rfl, Option.some.inj hl⟩ he
          | signal d => exact absurd ⟨rfl, Option.some.inj hl⟩ he
          | _ => cases hl
        · exact (hcase.owner_other hl).trans ho
      · exact hcase.owner_of_ne ho fun e => hqp e.symm
  | _ => exact ho

/-! ### Waits on one semaphore -/

/-- The initial count of a semaphore, its signals, and its waits in the order of the calls,
each with the mark whether it has returned. -/
structure SemLog (P : Type*) where
  start : Int
  signals : Nat
  waits : List (P × Bool)

/-- Marks the waits of `p` as returned. -/
def markReturned (p : P) (waits : List (P × Bool)) : List (P × Bool) :=
  waits.map fun e => if e.1 = p then (p, true) else e

def semLogAfter (s : S) (o : SemLog P) : Event P S L C → SemLog P
  | .newSem t n => if t = s then { o with start := n } else o
  | .call p (.semWait t) .blocked => if t = s then { o with waits := o.waits ++ [(p, false)] } else o
  | .call p (.semWait t) (.returned true) =>
    if t = s then { o with waits := o.waits ++ [(p, true)] } else o
  | .call _ (.semSignal t) _ => if t = s then { o with signals := o.signals + 1 } else o
  | .ret p (.semWait t) => if t = s then { o with waits := markReturned p o.waits } else o
  | _ => o

/-- The granted waits come first; the others are the queue. -/
structure SemLog.Fits (o : SemLog P) (s : S) (σ : Session P S L C) (old : List (P × Bool)) :
    Prop where
  waits : o.waits = old ++ (σ.mon.waiting (.sem s)).map fun p => (p, false)
  granted : ∀ e ∈ old, e.2 = true ∨ σ.pending e.1 = some (.semWait s) ∧ σ.Awake e.1
  count : σ.mon.count s = o.start + o.signals - old.length
  negative : σ.mon.count s < 0 → old = []
  unused : σ.inuse (.sem s) = false → o.signals = 0 ∧ old = []

omit [DecidableEq P] [DecidableEq S] [DecidableEq L] [DecidableEq C] in
/-- The arithmetic of the granted waits. -/
theorem SemLog.Fits.length_old {o : SemLog P} {s : S} {old : List (P × Bool)}
    (f : o.Fits s σ old) (h : σ.Sound) :
    (old.length : Int) = min (o.waits.length : Int) (max 0 (o.start + o.signals)) := by
  have hw : o.waits.length = old.length + (σ.mon.waiting (.sem s)).length := by simp [f.waits]
  have hc := f.count
  have hneg : σ.mon.count s < 0 → old.length = 0 := fun c => by rw [f.negative c]; rfl
  have hspent : 0 < σ.mon.count s → (σ.mon.waiting (.sem s)).length = 0 := fun c => by
    rw [h.spent s c]; rfl
  omega

/-- Only calls on a semaphore touch its queue and its count. -/
theorem CallCase.sem_other {m m' : Monitor P S L C} {p : P} {c : Call P S L C} {r : Outcome}
    (h : CallCase m p c r m') {s : S} (hc : c.target ≠ .sem s) :
    m'.waiting (.sem s) = m.waiting (.sem s) ∧ m'.count s = m.count s := by
  cases h with
  | semTake t h => exact ⟨rfl, setCount_of_ne _ _ _ fun e => hc (by rw [e]; rfl)⟩
  | semSleep t h => exact ⟨enqueue_of_ne _ _ _ _ fun e => hc e.symm, rfl⟩
  | semCount t h => exact ⟨rfl, setCount_of_ne _ _ _ fun e => hc (by rw [e]; rfl)⟩
  | semWake t h hq => exact ⟨setWaiting_of_ne _ _ _ _ fun e => hc e.symm, rfl⟩
  | acquireSleep k h ho => exact ⟨enqueue_of_ne _ _ _ _ (by simp), rfl⟩
  | release k h => exact ⟨by rw [handOver_waiting, if_neg (by simp)], by simp⟩
  | transfer k q h => exact ⟨setWaiting_of_ne _ _ _ _ (by simp), rfl⟩
  | wait d h =>
      refine ⟨?_, by simp⟩
      rw [handOver_waiting, if_neg (by simp), enqueue_of_ne _ _ _ _ (by simp)]
  | signal d h hq =>
      refine ⟨?_, rfl⟩
      rw [enqueue_of_ne _ _ _ _ (by simp), setOwner_waiting, setWaiting_of_ne _ _ _ _ (by simp)]
  | _ => exact ⟨rfl, rfl⟩

omit [DecidableEq L] [DecidableEq C] in
/-- Calls on other objects do not change the log. -/
theorem semLogAfter_other {s : S} (o : SemLog P) {p : P} {c : Call P S L C} {r : Outcome}
    (hc : c.target ≠ .sem s) : semLogAfter s o (.call p c r) = o := by
  cases c with
  | semWait t =>
      have e : t ≠ s := fun e => hc (by rw [e]; rfl)
      cases r with
      | blocked => simp [semLogAfter, e]
      | returned ok => cases ok <;> simp [semLogAfter, e]
  | semSignal t =>
      have e : t ≠ s := fun e => hc (by rw [e]; rfl)
      simp [semLogAfter, e]
  | _ => rfl

/-- Who was granted a wait keeps the grant while others make calls. -/
theorem granted_perform {s : S} {old : List (P × Bool)} {p : P} {c : Call P S L C}
    (hp : σ.pending p = none)
    (ho : ∀ e ∈ old, e.2 = true ∨ σ.pending e.1 = some (.semWait s) ∧ σ.Awake e.1) :
    ∀ e ∈ old, e.2 = true ∨
      (σ.perform p c).pending e.1 = some (.semWait s) ∧ (σ.perform p c).Awake e.1 := by
  intro e he
  refine (ho e he).imp_right fun ⟨hw, ha⟩ => ?_
  have hep : e.1 ≠ p := fun c => by rw [c, hp] at hw; cases hw
  exact ⟨(perform_pending_of_ne σ c hep).trans hw, ha.perform hep c⟩

/-- One call keeps the log of a semaphore. -/
theorem SemLog.Fits.call {o : SemLog P} {s : S} {old : List (P × Bool)} (f : o.Fits s σ old)
    (h : σ.Sound) {p : P} {c : Call P S L C} (hp : σ.pending p = none)
    (hc : σ.inuse c.target = true) :
    ∃ old', (semLogAfter s o (.call p c (σ.mon.call p c).1)).Fits s (σ.perform p c) old' := by
  have hold := granted_perform (c := c) hp f.granted
  by_cases ht : c.target = .sem s
  · have hu : ∀ {q : Prop}, (σ.perform p c).inuse (.sem s) = false → q := fun hf => by
      rw [show (σ.perform p c).inuse (.sem s) = true from ht ▸ hc] at hf
      cases hf
    generalize hr : (σ.mon.call p c).1 = r
    generalize hm : (σ.mon.call p c).2 = m'
    have hcase := call_cases σ.mon p c
    rw [hr, hm] at hcase
    have hmon : (σ.perform p c).mon = m' := hm
    cases hcase with
    | semTake t hcount =>
        cases ht
        refine ⟨old ++ [(p, true)], ?_, ?_, ?_, fun hn => ?_, hu⟩
        · simp [semLogAfter, f.waits, hmon, h.spent s hcount]
        · simpa [or_imp, forall_and] using hold
        · have := f.count
          rw [hmon, setCount_self]
          simp [semLogAfter]
          omega
        · rw [hmon, setCount_self] at hn
          omega
    | semSleep t hcount =>
        cases ht
        refine ⟨old, ?_, hold, ?_, fun hn => ?_, hu⟩
        · simp [semLogAfter, f.waits, hmon]
        · simpa [semLogAfter, hmon] using f.count
        · exact f.negative (by simpa [hmon] using hn)
    | semCount t hcount =>
        cases ht
        refine ⟨old, ?_, hold, ?_, fun hn => ?_, hu⟩
        · simp [semLogAfter, f.waits, hmon]
        · have := f.count
          rw [hmon, setCount_self]
          simp [semLogAfter]
          omega
        · rw [hmon, setCount_self] at hn
          exact f.negative (by omega)
    | @semWake t q rest hcount hq =>
        cases ht
        have hle : σ.mon.count s ≤ 0 := by
          by_contra hpos
          rw [h.spent s (by omega)] at hq
          cases hq
        have hmem : q ∈ σ.mon.waiting (.sem s) := by simp [hq]
        have hqp : q ≠ p := fun e => h.awake hp _ (e ▸ hmem)
        refine ⟨old ++ [(q, false)], ?_, ?_, ?_, fun hn => ?_, hu⟩
        · simp [semLogAfter, f.waits, hmon, hq]
        · intro e he
          rcases List.mem_append.mp he with he | he
          · exact hold e he
          · obtain rfl := List.mem_singleton.mp he
            obtain ⟨d, hd, hw⟩ := h.pending _ q hmem
            refine .inr ⟨(perform_pending_of_ne σ _ hqp).trans (hd.trans ?_), fun w hw => ?_⟩
            · cases d <;> cases hw
              rfl
            · rw [hmon] at hw
              have hnd := h.nodup (.sem s)
              rw [hq] at hnd
              by_cases e : w = .sem s
              · subst e
                rw [setWaiting_self] at hw
                exact (List.nodup_cons.mp hnd).1 hw
              · rw [setWaiting_of_ne _ _ _ _ e] at hw
                exact e (h.unique hw hmem)
        · have := f.count
          rw [hmon]
          simp [semLogAfter]
          omega
        · rw [hmon, setWaiting_count] at hn
          omega
    | _ => cases ht
  · obtain ⟨hw, hn⟩ := (call_cases σ.mon p c).sem_other ht
    refine ⟨old, ?_, hold, ?_, fun hneg => f.negative (hn ▸ hneg), fun hf => ?_⟩
    · rw [semLogAfter_other o ht, f.waits]
      exact congrArg (fun ps => old ++ List.map (fun p => (p, false)) ps) hw.symm
    · rw [semLogAfter_other o ht]
      exact hn.trans f.count
    · rw [semLogAfter_other o ht]
      exact f.unused hf

/-- Marking the waits of one process as returned marks no wait of a queued process. -/
theorem markReturned_queue {p : P} {ps : List P} (hp : p ∉ ps) :
    markReturned p (ps.map fun q => (q, false)) = ps.map fun q => (q, false) := by
  rw [markReturned, List.map_map]
  refine List.map_congr_left fun q hq => ?_
  have hqp : q ≠ p := fun e => hp (e ▸ hq)
  simp [hqp]

/-- Every step keeps the log of a semaphore. -/
theorem semLogAfter_fits {o : SemLog P} {s : S} {old : List (P × Bool)} (f : o.Fits s σ old)
    (h : σ.Sound) (hs : σ.Step e σ') : ∃ old', (semLogAfter s o e).Fits s σ' old' := by
  cases hs with
  | idle => exact ⟨old, f⟩
  | exit hp => exact ⟨old, f⟩
  | @newSem t n hw =>
      by_cases e : t = s
      · subst e
        obtain ⟨hn, rfl⟩ := f.unused hw
        refine ⟨[], ?_, by simp, by simp [semLogAfter, hn], fun _ => rfl, fun hf => ?_⟩
        · simpa [semLogAfter] using f.waits
        · simp at hf
      · have e' : s ≠ t := fun c => e c.symm
        refine ⟨old, ?_, f.granted, ?_, fun hn => f.negative ?_, fun hf => ?_⟩
        · simpa [semLogAfter, e] using f.waits
        · simpa [semLogAfter, e, setCount_of_ne _ _ _ e'] using f.count
        · simpa [setCount_of_ne _ _ _ e'] using hn
        · simpa [semLogAfter, e] using f.unused (by simpa [e'] using hf)
  | newLock hw =>
      exact ⟨old, f.waits, f.granted, f.count, f.negative, fun hf => f.unused (by simpa using hf)⟩
  | newCond hw hk =>
      exact ⟨old, f.waits, f.granted, f.count, f.negative, fun hf =>
        f.unused (by simpa [bindCond] using hf)⟩
  | call hp hc => exact f.call h hp hc
  | @ret p c hp ha =>
      have other : ∀ q, q ≠ p → (σ.finish p).pending q = σ.pending q := fun q hq =>
        Function.update_of_ne hq ..
      by_cases hc : c = .semWait s
      · subst hc
        refine ⟨markReturned p old, ?_, fun e he => ?_, ?_, fun hn => ?_, fun hf => ?_⟩
        · have hq := markReturned_queue (ha (.sem s))
          rw [markReturned] at hq
          simp [semLogAfter, markReturned, f.waits, finish, hq]
        · obtain ⟨e', he', rfl⟩ := List.mem_map.mp he
          by_cases hep : e'.1 = p
          · exact .inl (by simp [hep])
          · have hg : e'.2 = true ∨ σ.pending e'.1 = some (.semWait s) ∧ (σ.finish p).Awake e'.1 :=
              f.granted e' he'
            simpa [hep, other _ hep] using hg
        · simpa [semLogAfter, markReturned, finish] using f.count
        · simp [f.negative hn, markReturned]
        · obtain ⟨h₁, h₂⟩ := f.unused hf
          simp [semLogAfter, h₁, h₂, markReturned]
      · have ho : semLogAfter s o (.ret p c) = o := by
          cases c with
          | semWait t =>
              have e : t ≠ s := fun e => hc (by rw [e])
              simp [semLogAfter, e]
          | _ => rfl
        rw [ho]
        refine ⟨old, f.waits, fun e he => ?_, f.count, f.negative, f.unused⟩
        rcases f.granted e he with hg | hg
        · exact .inl hg
        · have hep : e.1 ≠ p := fun c' => hc (by
            rw [c', hp] at hg
            exact Option.some.inj hg.1)
          exact .inr ⟨(other _ hep).trans hg.1, hg.2⟩

/-! ### Arrivals at one condition variable -/

/-- The processes inside a wait on `c`, in the order in which they called it. -/
def arrivalsAfter (c : C) (arrivals : List P) : Event P S L C → List P
  | .call p (.wait d) .blocked => if d = c then arrivals ++ [p] else arrivals
  | .ret p (.wait d) => if d = c then arrivals.filter (· ≠ p) else arrivals
  | _ => arrivals

/-- Those arrivals that are still queued, in order of arrival, are the whole queue. -/
structure ArrivalsFit (c : C) (arrivals : List P) (σ : Session P S L C) : Prop where
  inside : ∀ p ∈ arrivals, σ.pending p = some (.wait c)
  queue : σ.mon.waiting (.cond c) =
    arrivals.filter fun p => decide (p ∈ σ.mon.waiting (.cond c))

/-- A call leaves the queue of a condition variable alone, lengthens it or takes its head. -/
theorem CallCase.cond_queue {m m' : Monitor P S L C} {p : P} {c : Call P S L C} {r : Outcome}
    (h : CallCase m p c r m') (d : C) :
    m'.waiting (.cond d) = m.waiting (.cond d) ∧ (c = .wait d → r ≠ .blocked) ∨
      c = .wait d ∧ r = .blocked ∧ m'.waiting (.cond d) = m.waiting (.cond d) ++ [p] ∨
      c = .signal d ∧ ∃ q rest, m.waiting (.cond d) = q :: rest ∧ m'.waiting (.cond d) = rest := by
  cases h with
  | semSleep s h => exact .inl ⟨enqueue_of_ne _ _ _ _ (by simp), by simp⟩
  | semWake s h hq => exact .inl ⟨setWaiting_of_ne _ _ _ _ (by simp), by simp⟩
  | acquireSleep k h ho => exact .inl ⟨enqueue_of_ne _ _ _ _ (by simp), by simp⟩
  | release k h => exact .inl ⟨by rw [handOver_waiting, if_neg (by simp)], by simp⟩
  | transfer k q h => exact .inl ⟨setWaiting_of_ne _ _ _ _ (by simp), by simp⟩
  | wait b h =>
      rw [handOver_waiting, if_neg (by simp)]
      by_cases e : b = d
      · subst e
        exact .inr (.inl ⟨rfl, rfl, enqueue_self ..⟩)
      · exact .inl ⟨enqueue_of_ne _ _ _ _ fun c => e (by cases c; rfl), fun c => by
          cases c
          exact absurd rfl e⟩
  | @signal b q rest h hq =>
      rw [enqueue_of_ne _ _ _ _ (by simp), setOwner_waiting]
      by_cases e : b = d
      · subst e
        exact .inr (.inr ⟨rfl, q, rest, hq, setWaiting_self ..⟩)
      · exact .inl ⟨setWaiting_of_ne _ _ _ _ fun c => e (by cases c; rfl), by simp⟩
  | _ => exact .inl ⟨rfl, by simp⟩

omit [DecidableEq P] [DecidableEq S] [DecidableEq L] [DecidableEq C] in
/-- Whoever is inside a wait and sleeps is in the queue of the condition variable. -/
theorem Session.Sound.mem_cond (h : σ.Sound) {p : P} {c : C} (hp : σ.pending p = some (.wait c))
    (ha : ¬ σ.Awake p) : p ∈ σ.mon.waiting (.cond c) := by
  obtain ⟨w, hw⟩ := not_forall_not.mp ha
  obtain ⟨d, hd, e⟩ := h.pending w p hw
  obtain rfl : d = .wait c := Option.some.inj (hd.symm.trans hp)
  obtain rfl : WaitPoint.cond c = w := Option.some.inj e
  exact hw

omit [DecidableEq S] [DecidableEq L] [DecidableEq C] in
/-- The arrivals that still sleep are the queue. -/
theorem ArrivalsFit.asleep {c : C} {arrivals : List P} (f : ArrivalsFit c arrivals σ) (h : σ.Sound)
    {asleep : P → Bool} (ha : ∀ p ∈ arrivals, asleep p = true ↔ ¬ σ.Awake p) :
    σ.mon.waiting (.cond c) = arrivals.filter asleep := by
  refine f.queue.trans (List.filter_congr fun p hp => ?_)
  rw [Bool.eq_iff_iff, decide_eq_true_iff, ha p hp]
  exact ⟨fun hm ha => ha _ hm, h.mem_cond (f.inside p hp)⟩

/-- One call keeps the arrivals. -/
theorem ArrivalsFit.call {c : C} {arrivals : List P} (f : ArrivalsFit c arrivals σ) (h : σ.Sound)
    {p : P} {d : Call P S L C} (hp : σ.pending p = none) :
    ArrivalsFit c (arrivalsAfter c arrivals (.call p d (σ.mon.call p d).1)) (σ.perform p d) := by
  have ne : ∀ q ∈ arrivals, q ≠ p := fun q hq e => by
    have := f.inside q hq
    rw [e, hp] at this
    cases this
  have inside : ∀ q ∈ arrivals, (σ.perform p d).pending q = some (.wait c) := fun q hq =>
    (perform_pending_of_ne σ d (ne q hq)).trans (f.inside q hq)
  rcases (call_cases σ.mon p d).cond_queue c with ⟨hq, hd⟩ | ⟨rfl, hr, hq⟩ | ⟨rfl, q, rest, hw, hq⟩
  · have same : arrivalsAfter c arrivals (.call p d (σ.mon.call p d).1) = arrivals := by
      cases d with
      | wait b =>
          cases hr : (σ.mon.call p (.wait b)).1 with
          | blocked =>
              have e : b ≠ c := fun e => hd (by rw [e]) hr
              simp [arrivalsAfter, e]
          | returned ok => rfl
      | _ => rfl
    rw [same]
    refine ⟨inside, ?_⟩
    rw [show (σ.perform p d).mon.waiting (.cond c) = σ.mon.waiting (.cond c) from hq]
    exact f.queue
  · have new : arrivalsAfter c arrivals
        (.call p (.wait c) (σ.mon.call p (.wait c)).1 : Event P S L C) = arrivals ++ [p] := by
      simp [hr, arrivalsAfter]
    rw [new]
    refine ⟨fun q hm => ?_, ?_⟩
    · rcases List.mem_append.mp hm with hm | hm
      · exact inside q hm
      · simp [perform, hr, List.mem_singleton.mp hm]
    · rw [show (σ.perform p (.wait c)).mon.waiting (.cond c) = _ from hq, List.filter_append]
      have old : arrivals.filter (fun q => decide (q ∈ σ.mon.waiting (.cond c) ++ [p])) =
          σ.mon.waiting (.cond c) := by
        refine Eq.trans (List.filter_congr fun q hm => ?_) f.queue.symm
        simp [ne q hm]
      rw [old]
      simp
  · have same : arrivalsAfter c arrivals
        (.call p (.signal c) (σ.mon.call p (.signal c)).1 : Event P S L C) = arrivals := rfl
    rw [same]
    refine ⟨inside, ?_⟩
    rw [show (σ.perform p (.signal c)).mon.waiting (.cond c) = rest from hq]
    have hnd := h.nodup (.cond c)
    have hf := f.queue
    rw [hw] at hnd hf
    calc rest = (q :: rest).filter (fun a => decide (a ∈ rest)) := by
          rw [List.filter_cons_of_neg (by simpa using (List.nodup_cons.mp hnd).1)]
          exact (List.filter_eq_self.mpr fun a ha => by simpa using ha).symm
      _ = (arrivals.filter fun a => decide (a ∈ q :: rest)).filter fun a => decide (a ∈ rest) := by
          rw [← hf]
      _ = arrivals.filter fun a => decide (a ∈ rest) := by
          rw [List.filter_filter]
          refine List.filter_congr fun a _ => ?_
          by_cases ha : a ∈ rest <;> simp [ha]

/-- Every step keeps the arrivals. -/
theorem arrivalsAfter_fit {c : C} {arrivals : List P} (f : ArrivalsFit c arrivals σ) (h : σ.Sound)
    (hs : σ.Step e σ') : ArrivalsFit c (arrivalsAfter c arrivals e) σ' := by
  cases hs with
  | call hp hc => exact f.call h hp
  | @ret p d hp ha =>
      have other : ∀ q, q ≠ p → (σ.finish p).pending q = σ.pending q := fun q hq =>
        Function.update_of_ne hq ..
      by_cases hd : d = .wait c
      · subst hd
        have new : arrivalsAfter c arrivals (.ret p (.wait c) : Event P S L C) =
            arrivals.filter (· ≠ p) := by simp [arrivalsAfter]
        rw [new]
        refine ⟨fun q hq => ?_, ?_⟩
        · obtain ⟨hq, hne⟩ := List.mem_filter.mp hq
          exact (other q (by simpa using hne)).trans (f.inside q hq)
        · rw [List.filter_filter]
          refine f.queue.trans (List.filter_congr fun q _ => ?_)
          by_cases e : q = p
          · subst e
            simpa using ha (.cond c)
          · change _ = (decide (q ∈ σ.mon.waiting (.cond c)) && decide (q ≠ p))
            simp [e]
      · have same : arrivalsAfter c arrivals (.ret p d) = arrivals := by
          cases d with
          | wait b =>
              have e : b ≠ c := fun e => hd (by rw [e])
              simp [arrivalsAfter, e]
          | _ => rfl
        rw [same]
        refine ⟨fun q hq => (other q fun e => hd ?_).trans (f.inside q hq), f.queue⟩
        have := f.inside q hq
        rw [e, hp] at this
        exact Option.some.inj this
  | _ => exact ⟨f.inside, f.queue⟩

/-! ### How one lock passes on -/

/-- The processes that blocked on a lock, those that were handed it from its queue, and
whether it was ever transferred. -/
structure LockLog (P : Type*) where
  blocked : List P
  handed : List P
  transferred : Bool

/-- The process that a step made the owner out of the queue. -/
def handedOn (before after : Option P) (queue : List P) : List P :=
  match after with
  | some q => if before ≠ some q ∧ q ∈ queue then [q] else []
  | none => []

/-- The process that a step put to sleep for lock `k`. -/
def blockedOn (bound : C → L) (k : L) : Event P S L C → List P
  | .call p (.acquire j) .blocked => if j = k then [p] else []
  | .call p (.signal c) .blocked => if bound c = k then [p] else []
  | _ => []

def lockLogAfter (k : L) (o : LockLog P) (σ : Session P S L C) (e : Event P S L C)
    (σ' : Session P S L C) : LockLog P where
  blocked := o.blocked ++ blockedOn σ.mon.bound k e
  handed := o.handed ++ handedOn (σ.mon.owner k) (σ'.mon.owner k) (σ.mon.waiting (.lock k))
  transferred := o.transferred || match e with
    | .call _ (.transfer j _) _ => decide (j = k)
    | _ => false

omit [DecidableEq S] [DecidableEq L] [DecidableEq C] in
@[simp] theorem handedOn_self (o : Option P) (queue : List P) : handedOn o o queue = [] := by
  cases o <;> simp [handedOn]

omit [DecidableEq S] [DecidableEq L] [DecidableEq C] in
theorem handedOn_not_mem {before : Option P} {q : P} {queue : List P} (h : q ∉ queue) :
    handedOn before (some q) queue = [] := by
  simp [handedOn, h]

/-- The head of the queue is handed the lock, and the rest of the queue stays. -/
theorem handedOn_handOver (n : Monitor P S L C) {p : P} {j k : L} {queue : List P}
    (hq : n.waiting (.lock k) = queue) (ho : n.owner j = some p) (hp : p ∉ queue) :
    queue = handedOn (n.owner k) ((n.handOver j).owner k) queue ++
      (n.handOver j).waiting (.lock k) := by
  by_cases e : k = j
  · subst e
    rw [ho, handOver_owner, handOver_waiting, if_pos rfl, hq]
    cases queue with
    | nil => rfl
    | cons q rest =>
        have hpq : p ≠ q := fun e => hp (by simp [e])
        simp [handedOn, hpq]
  · rw [handOver_owner_of_ne _ e, handOver_waiting, if_neg (by simpa using e), hq]
    simp

/-- Who is handed a lock comes from the head of its queue, and who blocks joins its tail. -/
theorem CallCase.lock_queue {m m' : Monitor P S L C} {p : P} {c : Call P S L C} {r : Outcome}
    (h : CallCase m p c r m') (k : L) (hp : ∀ w, p ∉ m.waiting w)
    (hs : ∀ d k q, q ∈ m.waiting (.cond d) → q ∉ m.waiting (.lock k))
    (ht : ∀ q, c ≠ .transfer k q) :
    m.waiting (.lock k) ++ blockedOn m.bound k (.call p c r) =
      handedOn (m.owner k) (m'.owner k) (m.waiting (.lock k)) ++ m'.waiting (.lock k) := by
  cases h with
  | semSleep s h => simp [blockedOn, enqueue_of_ne]
  | semWake s h hq => simp [blockedOn, setWaiting_of_ne]
  | acquireFree j h =>
      by_cases e : k = j
      · subst e
        simp [blockedOn, handedOn_not_mem (hp _)]
      · simp [blockedOn, setOwner_of_ne _ _ _ _ e]
  | acquireSleep j h ho =>
      by_cases e : k = j
      · subst e
        simp [blockedOn]
      · have e' : j ≠ k := fun c => e c.symm
        simp [blockedOn, e', enqueue_of_ne, e]
  | release j h => simpa [blockedOn] using handedOn_handOver m rfl h (hp (.lock k))
  | transfer j q h =>
      have e : k ≠ j := fun e => ht q (by rw [e])
      simp [blockedOn, setOwner_of_ne _ _ _ _ e, setWaiting_of_ne, e]
  | wait d h =>
      have hq : (m.enqueue (.cond d) p).waiting (.lock k) = m.waiting (.lock k) :=
        enqueue_of_ne _ _ _ _ (by simp)
      simpa [blockedOn] using handedOn_handOver (m.enqueue (.cond d) p) hq h (hp (.lock k))
  | @signal d q rest h hw =>
      by_cases e : k = m.bound d
      · subst e
        have hq : q ∉ m.waiting (.lock (m.bound d)) := hs d _ q (by simp [hw])
        simp [blockedOn, handedOn_not_mem hq, setWaiting_of_ne]
      · have e' : m.bound d ≠ k := fun c => e c.symm
        simp [blockedOn, e', setOwner_of_ne _ _ _ _ e, enqueue_of_ne, e, setWaiting_of_ne]
  | _ => simp [blockedOn]

/-- Every step keeps the order in which a lock is handed on. -/
theorem lockLogAfter_fits {k : L} {o : LockLog P} (h : σ.Sound) (hs : σ.Step e σ')
    (f : o.transferred = false → o.blocked = o.handed ++ σ.mon.waiting (.lock k))
    (ht : (lockLogAfter k o σ e σ').transferred = false) :
    (lockLogAfter k o σ e σ').blocked =
      (lockLogAfter k o σ e σ').handed ++ σ'.mon.waiting (.lock k) := by
  have hf := f (Bool.or_eq_false_iff.mp ht).1
  cases hs with
  | @call p c hp hc =>
      have hne : ∀ q, c ≠ .transfer k q := fun q e => by
        subst e
        simp [lockLogAfter] at ht
      have hq := (call_cases σ.mon p c).lock_queue k (h.awake hp) h.cond_lock hne
      calc o.blocked ++ blockedOn σ.mon.bound k (.call p c (σ.mon.call p c).1)
          = o.handed ++ (σ.mon.waiting (.lock k) ++
              blockedOn σ.mon.bound k (.call p c (σ.mon.call p c).1)) := by
            rw [hf, List.append_assoc]
        _ = _ := by
            rw [hq, ← List.append_assoc]
            rfl
  | @newLock j hw =>
      have e : (σ.mon.setOwner j none).owner = σ.mon.owner := by
        rw [setOwner, ← h.fresh j hw, Function.update_eq_self]
      simp [lockLogAfter, blockedOn, hf, e]
  | _ => simp [lockLogAfter, blockedOn, hf, bindCond, finish]

end DlxOs.Monitors
