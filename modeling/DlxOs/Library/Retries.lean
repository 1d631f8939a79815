import DlxOs.Library.Discipline
import DlxOs.Library.Fairness

/-!
# Programs that retry under a lock

A process that does not find what it needs lets the lock go and tries again. In
such rounds nothing gets done. As long as nothing else gets done either, the
lock goes round in the order of its queue, so whoever waits for it gets it in
a fair execution, and can be followed from one local state to the next.

## Main results

* `Retrying.works`: a process that is awake and does not retry gets on.
* `Retrying.acquires`, `Retrying.releases`, `Retrying.computes`: where a process
  goes while nothing gets done.
* `Retrying.lets_in`: a process in the queue of the lock gets the lock.
* `Retrying.terminates`: the program comes to its end, if something gets done
  whenever all who could act retry.

## Implementation notes

`level` says how much a process has left to do at a local state. It falls with
every action but those of rounds without result. `rank` is how far such a round
is from its end.
-/

namespace DlxOs.Monitors

open Monitor Session Transition

variable {P S L C : Type*} {Loc : P → Type*} {Mem : Type*} [DecidableEq P] [DecidableEq S]
  [DecidableEq L] [DecidableEq C]

/-! ### Positions in the queue of a lock -/

section Positions

variable {m m' : Monitor P S L C} {p q : P} {c : Call P S L C} {r : Outcome} {k : L}

theorem idxOf_tail_lt {l : List P} (hd : l.Nodup) (h : q ∈ l.tail) :
    l.tail.idxOf q < l.idxOf q := by
  cases l with
  | nil => cases h
  | cons a rest =>
      have hne : a ≠ q := fun e => (List.nodup_cons.mp hd).1 (e ▸ h)
      rw [List.idxOf_cons_ne _ hne]
      exact Nat.lt_succ_self _

/-- Calls move nobody back in the queue of a lock, and when the lock changes hands everybody in the
queue moves up. -/
theorem CallCase.position (h : CallCase m p c r m') (hd : (m.waiting (.lock k)).Nodup)
    (ht : ∀ j o, c ≠ .transfer j o) (hs : ∀ d, c ≠ .signal d) (ho : m.owner k ≠ none)
    (hq : q ∈ m.waiting (.lock k)) (hq' : q ∈ m'.waiting (.lock k)) :
    m'.owner k = m.owner k ∧
        (m'.waiting (.lock k)).idxOf q = (m.waiting (.lock k)).idxOf q ∨
      (m'.waiting (.lock k)).idxOf q < (m.waiting (.lock k)).idxOf q := by
  have handed : ∀ {n : Monitor P S L C} {j}, n.owner = m.owner →
      n.waiting (.lock k) = m.waiting (.lock k) → q ∈ (n.handOver j).waiting (.lock k) →
      (n.handOver j).owner k = m.owner k ∧
          ((n.handOver j).waiting (.lock k)).idxOf q = (m.waiting (.lock k)).idxOf q ∨
        ((n.handOver j).waiting (.lock k)).idxOf q < (m.waiting (.lock k)).idxOf q := by
    intro n j hown hwait hq'
    rw [handOver_waiting] at hq' ⊢
    by_cases e : k = j
    · subst e
      rw [if_pos rfl, hwait] at hq' ⊢
      exact .inr (idxOf_tail_lt hd hq')
    · rw [if_neg (by simpa using e), hwait, handOver_owner_of_ne _ e, hown]
      exact .inl ⟨rfl, rfl⟩
  cases h with
  | semSleep s h => exact .inl ⟨rfl, by rw [enqueue_of_ne _ _ _ _ (by simp)]⟩
  | semWake s h hw => exact .inl ⟨rfl, by rw [setWaiting_of_ne _ _ _ _ (by simp)]⟩
  | acquireFree j h =>
      have e : k ≠ j := fun e => ho (e ▸ h)
      exact .inl ⟨setOwner_of_ne _ _ _ _ e, rfl⟩
  | acquireSleep j h hop =>
      refine .inl ⟨rfl, ?_⟩
      by_cases e : k = j
      · subst e
        rw [enqueue_self, List.idxOf_append_of_mem hq]
      · rw [enqueue_of_ne _ _ _ _ (by simpa using e)]
  | release j h => exact handed rfl rfl hq'
  | transfer j o h => exact absurd rfl (ht j o)
  | wait d h => exact handed rfl (enqueue_of_ne _ _ _ _ (by simp)) hq'
  | signal d h hw => exact absurd rfl (hs d)
  | _ => exact .inl ⟨rfl, rfl⟩

end Positions

/-! ### Steps that can be taken -/

namespace Threads

variable {π : Program P S L C Loc Mem} {s t start : Threads P S L C Loc Mem} {p q : P} {k : L}
  {holds : (p : P) → Loc p → Prop}

/-- The process has work to do and is awake. -/
def Able (π : Program P S L C Loc Mem) (p : P) (s : Threads P S L C Loc Mem) : Prop :=
  π p (s.loc p) ≠ .stop ∧ s.session.Awake p

/-- Who has work to do and is awake can take a step. -/
theorem Able.steps (h : Able π p s) (hs : s.Coherent π)
    (used : ∀ w, s.session.inuse w = true) : ∃ t, s.Step π p t := by
  cases act : π p (s.loc p) with
  | stop => exact absurd act h.1
  | compute f => exact ⟨_, .compute (hs.outside act) act⟩
  | call c l =>
      cases hp : s.session.pending p with
      | none =>
          cases hr : (s.session.mon.call p c).1 with
          | blocked => exact ⟨_, .block hp act (used _) hr⟩
          | returned r => exact ⟨_, .pass hp act (used _) hr⟩
      | some d =>
          obtain ⟨l', act'⟩ := hs.called p d hp
          exact ⟨_, .wake hp h.2 act'⟩

/-- Nobody is put to sleep by another process. -/
theorem Step.awake_of_ne (h : s.Step π p t) (hq : q ≠ p) (awake : s.session.Awake q) :
    t.session.Awake q := by
  cases h with
  | compute => exact awake
  | block => exact awake.perform hq _
  | pass => exact awake.perform hq _
  | wake => exact awake

theorem Able.kept (h : Able π q s) (hs : s.Step π p t) (hq : q ≠ p) : Able π q t :=
  ⟨by rw [hs.loc_of_ne hq]; exact h.1, hs.awake_of_ne hq h.2⟩

/-- Nobody gets into a queue by another process's step. -/
theorem Step.mem_waiting_of_ne (h : s.Step π p t) (hq : q ≠ p) {w : WaitPoint S L C}
    (hw : q ∈ t.session.mon.waiting w) : q ∈ s.session.mon.waiting w := by
  have called : ∀ c, q ∈ (s.session.mon.call p c).2.waiting w → q ∈ s.session.mon.waiting w :=
    fun c hm => ((call_cases s.session.mon p c).mem_of_mem hm).resolve_right fun e => hq e.1
  cases h with
  | compute => exact hw
  | block => exact called _ hw
  | pass => exact called _ hw
  | wake => exact hw

/-- A sleeper that leaves its queue is awake. -/
theorem Step.woken_of_ne (h : s.Step π p t) (hs : s.session.Sound) (hq : q ≠ p)
    {w : WaitPoint S L C} (hw : q ∈ s.session.mon.waiting w)
    (hw' : q ∉ t.session.mon.waiting w) : t.session.Awake q := fun v hv => by
  obtain rfl := hs.unique hw (h.mem_waiting_of_ne hq hv)
  exact hw' hv

/-- Steps move nobody back in the queue of a lock that has an owner. -/
theorem Step.position (h : s.Step π p t) (hs : s.session.Sound)
    (hc : ∀ c l, π p (s.loc p) = .call c l → (∀ j o, c ≠ .transfer j o) ∧ ∀ d, c ≠ .signal d)
    (ho : s.session.mon.owner k ≠ none) (hq : q ∈ s.session.mon.waiting (.lock k))
    (hq' : q ∈ t.session.mon.waiting (.lock k)) :
    t.session.mon.owner k = s.session.mon.owner k ∧ (t.session.mon.waiting (.lock k)).idxOf q =
        (s.session.mon.waiting (.lock k)).idxOf q ∨
      (t.session.mon.waiting (.lock k)).idxOf q < (s.session.mon.waiting (.lock k)).idxOf q := by
  cases h with
  | compute => exact .inl ⟨rfl, rfl⟩
  | block outside act =>
      exact (call_cases _ _ _).position (hs.nodup _) (hc _ _ act).1 (hc _ _ act).2 ho hq hq'
  | pass outside act =>
      exact (call_cases _ _ _).position (hs.nodup _) (hc _ _ act).1 (hc _ _ act).2 ho hq hq'
  | wake => exact .inl ⟨rfl, rfl⟩

end Threads

/-! ### Work and rounds without result -/

/-- An action brings the level of its process down, or belongs to a round that retries: it leaves
the memory alone, sleeps on no semaphore, signals nobody, and gets nearer to the end of the round
or lets the lock go. -/
def Action.GoesOn {Loc : Type*} (retries : Loc → Bool) (level rank : Loc → ℕ) (l : Loc) :
    Action P S L C Loc Mem → Prop
  | .call c l' =>
    match retries l with
    | false => level l' < level l
    | true => level l' ≤ level l ∧ ((∀ t, c ≠ .semWait t) ∧ ∀ d, c ≠ .signal d) ∧
      ((∀ j, c ≠ .release j) → rank l' < rank l)
  | .compute f => ∀ x,
    match retries l with
    | false => level (f x).1 < level l
    | true => level (f x).1 ≤ level l ∧ (f x).2 = x ∧ rank (f x).1 < rank l
  | .stop => True

/-- Every action brings the level of its process down, except in rounds that retry. -/
structure Program.Retrying (π : Program P S L C Loc Mem) (start : Threads P S L C Loc Mem) (k : L)
    (holds : (p : P) → Loc p → Prop) (retries : (p : P) → Loc p → Bool)
    (level rank : (p : P) → Loc p → ℕ) (B : ℕ) : Prop where
  fresh : start.Fresh
  only : ∀ j, j = k
  disciplined : π.Disciplined k holds
  bound : ∀ c, start.session.mon.bound c = k
  outside : ∀ p, ¬ holds p (start.loc p)
  stops : ∀ p l, π p l = .stop → ¬ holds p l
  goesOn : ∀ p l, (π p l).GoesOn (retries p) (level p) (rank p) l
  rank_lt : ∀ p l, rank p l < B

namespace Threads

/-- What is left to do at the given levels. Going to sleep counts as well. -/
def toDo [Fintype P] (level : (p : P) → Loc p → ℕ) (retries : (p : P) → Loc p → Bool)
    (s : Threads P S L C Loc Mem) : ℕ :=
  s.tally fun p l c => 2 * level p l - (c.isSome && !retries p l).toNat

/-- Since `w` was left to do and the memory was `x` nothing has got done, and whoever has the lock
is awake. -/
structure Steady [Fintype P] (k : L) (level : (p : P) → Loc p → ℕ)
    (retries : (p : P) → Loc p → Bool) (w : ℕ) (x : Mem) (s : Threads P S L C Loc Mem) : Prop where
  toDo : s.toDo level retries = w
  mem : s.mem = x
  owner : ∀ p, s.session.mon.owner k = some p → s.session.Awake p

/-- Nothing has got done, and a process is at this local state, inside this call or outside all. -/
structure At [Fintype P] (k : L) (level : (p : P) → Loc p → ℕ) (retries : (p : P) → Loc p → Bool)
    (w : ℕ) (x : Mem) (q : P) (l : Loc q) (o : Option (Call P S L C))
    (s : Threads P S L C Loc Mem) : Prop where
  steady : s.Steady k level retries w x
  loc : s.loc q = l
  pending : s.session.pending q = o

/-- The same, whatever call the process is inside. -/
def On [Fintype P] (k : L) (level : (p : P) → Loc p → ℕ) (retries : (p : P) → Loc p → Bool) (w : ℕ)
    (x : Mem) (q : P) (l : Loc q) (s : Threads P S L C Loc Mem) : Prop :=
  s.Steady k level retries w x ∧ s.loc q = l

/-- What others do without getting anything done leaves the process where it is. -/
theorem At.of_ne [Fintype P] {π : Program P S L C Loc Mem} {s t : Threads P S L C Loc Mem}
    {p q : P} {level : (p : P) → Loc p → ℕ} {retries : (p : P) → Loc p → Bool} {w : ℕ} {x : Mem}
    {l : Loc q} {o : Option (Call P S L C)} (h : s.At k level retries w x q l o)
    (hs : s.Step π p t) (hq : q ≠ p) (steady : t.Steady k level retries w x) :
    t.At k level retries w x q l o :=
  ⟨steady, (hs.loc_of_ne hq).trans h.loc, (hs.pending_of_ne hq).trans h.pending⟩

/-- How far the owner of the lock is from the end of its round. -/
def ownerRank (k : L) (rank : (p : P) → Loc p → ℕ) (s : Threads P S L C Loc Mem) : ℕ :=
  match s.session.mon.owner k with
  | some p => rank p (s.loc p)
  | none => 0

omit [DecidableEq P] [DecidableEq S] [DecidableEq L] [DecidableEq C] in
theorem ownerRank_eq {s : Threads P S L C Loc Mem} {rank : (p : P) → Loc p → ℕ}
    (h : s.session.mon.owner k = some p) : s.ownerRank k rank = rank p (s.loc p) := by
  simp only [ownerRank, h]

omit [DecidableEq P] [DecidableEq S] [DecidableEq L] [DecidableEq C] in
theorem ownerRank_lt (s : Threads P S L C Loc Mem) {rank : (p : P) → Loc p → ℕ} {B : ℕ}
    (h : ∀ p l, rank p l < B) (hB : 0 < B) : s.ownerRank k rank < B := by
  rw [ownerRank]
  split
  · exact h _ _
  · exact hB

/-- How far a process in the queue of the lock is from getting it. -/
def distance (k : L) (rank : (p : P) → Loc p → ℕ) (B : ℕ) (q : P)
    (s : Threads P S L C Loc Mem) : ℕ :=
  (s.session.mon.waiting (.lock k)).idxOf q * B + s.ownerRank k rank

end Threads

namespace Program.Retrying

variable {π : Program P S L C Loc Mem} {start s t : Threads P S L C Loc Mem} {p q : P} {k : L}
  {holds : (p : P) → Loc p → Prop} {retries : (p : P) → Loc p → Bool}
  {level rank : (p : P) → Loc p → ℕ} {B w : ℕ} {x₀ : Mem}
  (R : π.Retrying start k holds retries level rank B)

include R

section Actions

omit [DecidableEq P] [DecidableEq S] [DecidableEq L] [DecidableEq C]

variable {l next : Loc p} {c : Call P S L C} {f : Mem → Loc p × Mem}

theorem call_lt (hret : retries p l = false) (act : π p l = .call c next) :
    level p next < level p l := by
  have goes := R.goesOn p l
  rw [act, Action.GoesOn, hret] at goes
  exact goes

theorem call_retry (hret : retries p l = true) (act : π p l = .call c next) :
    level p next ≤ level p l ∧ ((∀ t, c ≠ .semWait t) ∧ ∀ d, c ≠ .signal d) ∧
      ((∀ j, c ≠ .release j) → rank p next < rank p l) := by
  have goes := R.goesOn p l
  rw [act, Action.GoesOn, hret] at goes
  exact goes

theorem call_le (act : π p l = .call c next) : level p next ≤ level p l := by
  cases hret : retries p l with
  | false => exact (R.call_lt hret act).le
  | true => exact (R.call_retry hret act).1

theorem compute_lt (hret : retries p l = false) (act : π p l = .compute f) (x : Mem) :
    level p (f x).1 < level p l := by
  have goes := R.goesOn p l
  rw [act, Action.GoesOn, hret] at goes
  exact goes x

theorem compute_retry (hret : retries p l = true) (act : π p l = .compute f) (x : Mem) :
    level p (f x).1 ≤ level p l ∧ (f x).2 = x ∧ rank p (f x).1 < rank p l := by
  have goes := R.goesOn p l
  rw [act, Action.GoesOn, hret] at goes
  exact goes x

theorem compute_le (act : π p l = .compute f) (x : Mem) : level p (f x).1 ≤ level p l := by
  cases hret : retries p l with
  | false => exact (R.compute_lt hret act x).le
  | true => exact (R.compute_retry hret act x).1

theorem no_transfer (act : π p l = .call c next) : ∀ j o, c ≠ .transfer j o := by
  rintro j o rfl
  have hobey := R.disciplined p l
  rw [act] at hobey
  exact hobey

end Actions

theorem coherent (hr : (π.system start).Reachable s) : s.Coherent π :=
  Threads.reachable_coherent R.fresh hr

theorem guarded (hr : (π.system start).Reachable s) : s.Guarded k holds :=
  Threads.reachable_guarded R.fresh R.disciplined R.bound R.outside hr

/-- The owner of the lock has work to do. -/
theorem owner_able (hr : (π.system start).Reachable s) (ho : s.session.mon.owner k = some p)
    (awake : s.session.Awake p) : Threads.Able π p s :=
  ⟨fun stop => Threads.stops_without R.fresh R.disciplined R.bound R.outside R.stops hr stop ho,
    awake⟩

/-- In a round without result the owner of the lock gives it away or gets nearer to the end of the
round. -/
theorem owner_step (hr : (π.system start).Reachable s) (hs : s.Step π p t)
    (ho : s.session.mon.owner k = some p) (hret : retries p (s.loc p) = true) :
    t.session.mon.owner k ≠ some p ∨ rank p (t.loc p) < rank p (s.loc p) := by
  have coherent := R.coherent hr
  have awake := hs.awake coherent
  have bound : ∀ c, s.session.mon.bound c = k := fun c => R.only _
  cases hs with
  | @compute f outside act =>
      right
      change rank p ((s.setLoc p _).loc p) < _
      rw [Threads.setLoc_self]
      exact (R.compute_retry hret act s.mem).2.2
  | @block c l outside act used blocked =>
      left
      have hcase := call_cases s.session.mon p c
      rw [blocked] at hcase
      change (s.session.mon.call p c).2.owner k ≠ some p
      generalize (s.session.mon.call p c).2 = m' at hcase
      obtain ⟨-, ⟨hwait, hsignal⟩, -⟩ := R.call_retry hret act
      cases hcase with
      | semSleep u h => exact absurd rfl (hwait u)
      | acquireSleep j h hop =>
          obtain rfl := R.only j
          exact absurd (Option.some.inj (h.symm.trans ho)) hop
      | wait d h =>
          rw [bound, handOver_owner, enqueue_of_ne _ _ _ _ (by simp)]
          exact fun e => awake _ (List.mem_of_mem_head? e)
      | signal d h hw => exact absurd rfl (hsignal d)
  | @pass c l r outside act used returned =>
      rw [Threads.setLoc_self]
      by_cases hrel : ∃ j, c = .release j
      · left
        obtain ⟨j, rfl⟩ := hrel
        obtain rfl := R.only j
        have hcase := call_cases s.session.mon p (.release j)
        change (s.session.mon.call p _).2.owner j ≠ some p
        generalize (s.session.mon.call p _).2 = m', (s.session.mon.call p _).1 = o at hcase
        cases hcase with
        | releaseRefused _ h => exact absurd ho h
        | release _ h =>
            rw [handOver_owner]
            exact fun e => awake _ (List.mem_of_mem_head? e)
      · exact .inr ((R.call_retry hret act).2.2 fun j e => hrel ⟨j, e⟩)
  | @wake c l inside awake act =>
      right
      rw [Threads.setLoc_self]
      refine (R.call_retry hret act).2.2 fun j e => ?_
      exact coherent.sound.sleeps p c inside (e ▸ rfl)

/-- A round without result brings whoever is in the queue nearer to the lock, if the owner of the
lock is at it. -/
theorem distance_step (hr : (π.system start).Reachable s) (hs : s.Step π p t)
    (hret : retries p (s.loc p) = true) (hm : q ∈ s.session.mon.waiting (.lock k))
    (hm' : q ∈ t.session.mon.waiting (.lock k)) :
    t.distance k rank B q < s.distance k rank B q ∨
      t.distance k rank B q = s.distance k rank B q ∧
        ∀ a, s.session.mon.owner k = some a → t.session.mon.owner k = some a ∧ a ≠ p := by
  have sound := (R.coherent hr).sound
  have owned : s.session.mon.owner k ≠ none := fun free => by
    rw [sound.free k free] at hm
    cases hm
  have bound : t.ownerRank k rank < B := t.ownerRank_lt R.rank_lt
    ((Nat.zero_le _).trans_lt (R.rank_lt p (s.loc p)))
  rcases hs.position sound (fun c l act => ⟨R.no_transfer act, (R.call_retry hret act).2.1.2⟩)
    owned hm hm' with ⟨same, index⟩ | index
  · obtain ⟨a, ha⟩ := Option.ne_none_iff_exists'.mp owned
    have ha' := same.trans ha
    rw [Threads.distance, Threads.distance, index, t.ownerRank_eq ha', s.ownerRank_eq ha]
    by_cases hp : a = p
    · subst hp
      left
      have := (R.owner_step hr hs ha hret).resolve_left (not_not.mpr ha')
      omega
    · rw [hs.loc_of_ne hp]
      refine .inr ⟨rfl, fun b hb => ⟨same.trans hb, ?_⟩⟩
      exact fun e => hp ((Option.some.inj (ha.symm.trans hb)).trans e)
  · left
    calc t.distance k rank B q < ((t.session.mon.waiting (.lock k)).idxOf q + 1) * B := by
          rw [Threads.distance, Nat.add_mul, one_mul]
          exact Nat.add_lt_add_left bound _
      _ ≤ (s.session.mon.waiting (.lock k)).idxOf q * B := Nat.mul_le_mul_right _ index
      _ ≤ s.distance k rank B q := Nat.le_add_right ..

variable [Fintype P]

/-- No step adds to what is left to do. -/
theorem toDo_step (hs : s.Step π p t) : t.toDo level retries ≤ s.toDo level retries ∧
    (retries p (s.loc p) = false → t.toDo level retries < s.toDo level retries) := by
  let f := fun (p : P) (l : Loc p) (c : Option (Call P S L C)) =>
    2 * level p l - (c.isSome && !retries p l).toNat
  have sum := hs.tally f
  suffices falls : f p (t.loc p) (t.session.pending p) ≤ f p (s.loc p) (s.session.pending p) ∧
      (retries p (s.loc p) = false →
        f p (t.loc p) (t.session.pending p) < f p (s.loc p) (s.session.pending p)) by
    change t.tally f ≤ s.tally f ∧ (_ → t.tally f < s.tally f)
    refine ⟨by omega, fun h => ?_⟩
    have := falls.2 h
    omega
  have outside (l : Loc p) : f p l none = 2 * level p l := by simp [f]
  have inside (l : Loc p) (c : Call P S L C) :
      f p l (some c) = 2 * level p l - (!retries p l).toNat := by simp [f]
  cases hs with
  | @compute g out act =>
      have hle := R.compute_le act s.mem
      change f p ((s.setLoc p _).loc p) (s.session.pending p) ≤ _ ∧ (_ →
        f p ((s.setLoc p _).loc p) (s.session.pending p) < _)
      rw [Threads.setLoc_self, out, outside, outside]
      refine ⟨by omega, fun h => ?_⟩
      have := R.compute_lt h act s.mem
      omega
  | @block c l out act used blocked =>
      rw [show (s.call p c).session.pending p = some c by simp [perform, blocked], out, outside,
        Threads.call_loc, inside]
      refine ⟨Nat.sub_le _ _, fun h => ?_⟩
      have := R.call_lt h act
      rw [h, Bool.not_false, Bool.toNat_true]
      omega
  | @pass c l r out act used returned =>
      have hle := R.call_le act
      rw [show ((s.call p c).setLoc p l).session.pending p = none by simp [perform, returned, out],
        Threads.setLoc_self, out, outside, outside]
      refine ⟨by omega, fun h => ?_⟩
      have := R.call_lt h act
      omega
  | @wake c l pending awake act =>
      have hle := R.call_le act
      rw [show ((s.wake p).setLoc p l).session.pending p = none by simp [finish],
        Threads.setLoc_self, pending, outside, inside]
      cases h : retries p (s.loc p) with
      | true => exact ⟨Nat.mul_le_mul_left 2 hle, fun h => by cases h⟩
      | false =>
          have := R.call_lt h act
          rw [Bool.not_false, Bool.toNat_true]
          exact ⟨by omega, fun _ => by omega⟩

/-- Whoever has the lock is awake, unless it waits at a semaphore. -/
theorem steady (hr : (π.system start).Reachable s)
    (ho : ∀ p t, s.session.pending p = some (.semWait t) → s.session.mon.owner k ≠ some p) :
    s.Steady k level retries (s.toDo level retries) s.mem :=
  ⟨rfl, rfl, fun p h => ((R.guarded hr).owner_awake (R.coherent hr).sound R.only h).resolve_right
    fun ⟨t, ht⟩ => ho p t ht h⟩

/-- Either something gets done, or the step belongs to a round without result. -/
theorem steady_step (hr : (π.system start).Reachable s) (h : s.Steady k level retries w x₀)
    (hs : s.Step π p t) : t.toDo level retries < w ∨
      t.Steady k level retries w x₀ ∧ retries p (s.loc p) = true := by
  obtain ⟨hle, hlt⟩ := R.toDo_step hs
  rw [h.toDo] at hle hlt
  rcases hle.lt_or_eq with less | same
  · exact .inl less
  have hret : retries p (s.loc p) = true := by
    by_contra hn
    exact (hlt (Bool.eq_false_iff.mpr hn)).ne same
  refine .inr ⟨⟨same, ?_, fun q ho => ?_⟩, hret⟩
  · rw [← h.mem]
    cases hs with
    | @compute f outside act => exact (R.compute_retry hret act s.mem).2.1
    | _ => rfl
  · have coherent := R.coherent hr
    have hr' := hr.step hs
    rcases (R.guarded hr').owner_awake (R.coherent hr').sound R.only ho with awake | ⟨u, hu⟩
    · exact awake
    -- Who has the lock and is inside a wait at a semaphore had the lock before.
    by_cases hq : q = p
    · subst hq
      exfalso
      cases hs with
      | compute outside act => exact absurd (outside.symm.trans hu) (by simp)
      | @block c l outside act used blocked =>
          have e : some c = some (Call.semWait u) := by
            rw [← hu]
            simp [perform, blocked]
          exact (R.call_retry hret act).2.1.1 u (Option.some.inj e)
      | pass outside act used returned => simp [perform, returned, outside] at hu
      | wake inside awake act => simp [finish] at hu
    · have hi := (R.guarded hr' q).mp ho
      rw [Threads.Inside, hu] at hi
      rcases hi with ⟨hg, -⟩ | ⟨-, hh⟩
      · cases hg
      · rw [hs.pending_of_ne hq] at hu
        rw [hs.loc_of_ne hq] at hh
        refine hs.awake_of_ne hq (h.owner q ((R.guarded hr q).mpr ?_))
        rw [Threads.Inside, hu]
        exact .inr ⟨by simp [Monitor.granted], hh⟩

/-! ### What fairness brings about -/

variable {x : (π.system start).Execution}

/-- Who is awake and does not retry gets on. -/
theorem works (fair : x.Fair (Threads.Able π) Eq) (w : ℕ) (q : P) :
    x.LeadsTo (fun s => s.toDo level retries = w ∧ Threads.Able π q s ∧ retries q (s.loc q) = false)
      (fun s => s.toDo level retries < w) := by
  refine fair.acts_once q (fun s _ h => h.2.1) fun s p t _ ⟨hw, able, hret⟩ hs => ?_
  obtain ⟨hle, hlt⟩ := R.toDo_step hs
  rw [hw] at hle hlt
  by_cases hq : q = p
  · exact .inl (hlt (hq ▸ hret))
  · refine hle.lt_or_eq.imp_right fun same => ⟨⟨same, able.kept hs hq, ?_⟩, hq⟩
    rwa [hs.loc_of_ne hq]

/-- Who is outside all calls and has not stopped can act. -/
theorem able_at (hr : (π.system start).Reachable s) {l : Loc q} (act : π q l ≠ .stop)
    (h : s.At k level retries w x₀ q l none) : Threads.Able π q s :=
  ⟨by rwa [h.loc], (R.coherent hr).sound.awake h.pending⟩

/-- Who is outside all calls and does not retry gets on. -/
theorem works_at (fair : x.Fair (Threads.Able π) Eq) {l : Loc q} (act : π q l ≠ .stop)
    (hret : retries q l = false) :
    x.LeadsTo (Threads.At k level retries w x₀ q l none) (fun s => s.toDo level retries < w) := by
  refine System.Execution.LeadsTo.trans (.of_imp fun s hr h => ?_) (R.works fair w q)
  exact ⟨h.steady.toDo, R.able_at hr act h, by rwa [h.loc]⟩

/-- A process that can act as long as nothing gets done acts. -/
theorem acts (fair : x.Fair (Threads.Able π) Eq) {before after : Threads P S L C Loc Mem → Prop}
    (steady : ∀ s, before s → s.Steady k level retries w x₀)
    (able : ∀ s, (π.system start).Reachable s → before s → Threads.Able π q s)
    (own : ∀ s t, before s → s.Step π q t → t.Steady k level retries w x₀ → after t)
    (others : ∀ s p t, before s → s.Step π p t → q ≠ p → t.Steady k level retries w x₀ →
      before t) :
    x.LeadsTo before fun s => s.toDo level retries < w ∨ after s := by
  refine fair.acts_once q able fun s p t hr h hs => ?_
  rcases R.steady_step hr (steady s h) hs with less | ⟨still, -⟩
  · exact .inl (.inl less)
  by_cases hq : q = p
  · subst hq
    exact .inl (.inr (own s t h hs still))
  · exact .inr ⟨others s p t h hs hq still, hq⟩

/-- The process that computes goes on. -/
theorem computes (fair : x.Fair (Threads.Able π) Eq) {l : Loc q} {f : Mem → Loc q × Mem}
    (act : π q l = .compute f) : x.LeadsTo (Threads.On k level retries w x₀ q l)
      (fun s => s.toDo level retries < w ∨ s.At k level retries w x₀ q (f x₀).1 none) := by
  suffices outside : x.LeadsTo (Threads.At k level retries w x₀ q l none)
      (fun s => s.toDo level retries < w ∨ s.At k level retries w x₀ q (f x₀).1 none) by
    refine System.Execution.LeadsTo.trans (.of_imp fun s hr h => ?_) outside
    exact ⟨h.1, h.2, (R.coherent hr).outside (by rw [h.2, act])⟩
  refine R.acts fair (fun _ h => h.steady) (fun s hr => R.able_at hr (by simp [act]))
    (fun s t h hs steady => ?_) fun _ _ _ h => h.of_ne
  have act : π q (s.loc q) = .compute f := by rw [h.loc, act]
  cases hs with
  | compute outside act' =>
      obtain rfl := Action.compute.inj (act.symm.trans act')
      refine ⟨steady, ?_, outside⟩
      rw [← h.steady.mem]
      exact Threads.setLoc_self ..
  | block _ act' => cases act.symm.trans act'
  | pass _ act' => cases act.symm.trans act'
  | wake _ _ act' => cases act.symm.trans act'

/-- The process that makes a call goes on, or sleeps in the queue of its call. -/
theorem calls (fair : x.Fair (Threads.Able π) Eq) {l next : Loc q} {c : Call P S L C}
    (act : π q l = .call c next) :
    x.LeadsTo (Threads.At k level retries w x₀ q l none) (fun s => s.toDo level retries < w ∨
      s.At k level retries w x₀ q next none ∨ s.At k level retries w x₀ q l (some c) ∧
        ∃ v, s.session.mon.point c = some v ∧ q ∈ s.session.mon.waiting v) := by
  refine R.acts fair (fun _ h => h.steady) (fun s hr => R.able_at hr (by simp [act]))
    (fun s t h hs steady => ?_) fun _ _ _ h => h.of_ne
  have act : π q (s.loc q) = .call c next := by rw [h.loc, act]
  cases hs with
  | compute _ act' => cases act.symm.trans act'
  | @block d l' outside act' used blocked =>
      obtain ⟨rfl, rfl⟩ := Action.call.inj (act.symm.trans act')
      right
      have hcase := call_cases s.session.mon q c
      have hb := hcase.bound_eq
      rw [blocked] at hcase
      obtain ⟨v, hv, hm⟩ := hcase.mem_of_blocked
      refine ⟨⟨steady, h.loc, by simp [perform, blocked]⟩, v, ?_, hm⟩
      rw [← hv]
      cases c <;> simp [perform, Monitor.point, hb]
  | pass outside act' used returned =>
      obtain ⟨rfl, rfl⟩ := Action.call.inj (act.symm.trans act')
      left
      exact ⟨steady, Threads.setLoc_self .., by simp [perform, returned, outside]⟩
  | wake inside => cases inside.symm.trans h.pending

/-- The process that has been woken goes on. -/
theorem wakes (fair : x.Fair (Threads.Able π) Eq) {l next : Loc q} {c : Call P S L C}
    (act : π q l = .call c next) :
    x.LeadsTo (fun s => s.At k level retries w x₀ q l (some c) ∧ s.session.Awake q)
      (fun s => s.toDo level retries < w ∨ s.At k level retries w x₀ q next none) := by
  refine R.acts fair (fun _ h => h.1.steady) (fun s _ ⟨h, awake⟩ => ⟨by simp [h.loc, act], awake⟩)
    (fun s t ⟨h, awake⟩ hs steady => ?_)
    fun _ _ _ ⟨h, awake⟩ hs hq steady => ⟨h.of_ne hs hq steady, hs.awake_of_ne hq awake⟩
  have act : π q (s.loc q) = .call c next := by rw [h.loc, act]
  cases hs with
  | compute outside => cases outside.symm.trans h.pending
  | block outside => cases outside.symm.trans h.pending
  | pass outside => cases outside.symm.trans h.pending
  | wake inside _ act' =>
      obtain ⟨rfl, rfl⟩ := Action.call.inj (act.symm.trans act')
      exact ⟨steady, Threads.setLoc_self .., by simp [finish]⟩

/-- Whoever waits for the lock is woken: the owner goes on until it gives the lock to the first in
the queue. -/
theorem lets_in (fair : x.Fair (Threads.Able π) Eq) {l : Loc q} {c : Call P S L C} :
    x.LeadsTo
      (fun s => s.At k level retries w x₀ q l (some c) ∧ q ∈ s.session.mon.waiting (.lock k))
      (fun s => s.toDo level retries < w ∨
        s.At k level retries w x₀ q l (some c) ∧ s.session.Awake q) := by
  suffices progress : System.Execution.Progress (π.system start) (Threads.Able π) Eq
      (fun s => s.At k level retries w x₀ q l (some c) ∧ q ∈ s.session.mon.waiting (.lock k))
      (fun s => s.toDo level retries < w ∨
        s.At k level retries w x₀ q l (some c) ∧ s.session.Awake q)
      (Threads.distance k rank B q) (fun a s => s.session.mon.owner k = some a) from
    fair.leadsTo progress
  constructor
  case helper =>
    intro s hr ⟨_, hm⟩
    refine Option.ne_none_iff_exists'.mp fun free => ?_
    rw [(R.coherent hr).sound.free k free] at hm
    cases hm
  case able => exact fun s a hr h ho => R.owner_able hr ho (h.1.steady.owner a ho)
  case step =>
    intro s p t hr ⟨h, hm⟩ hs
    have hq : q ≠ p := fun e => hs.awake (R.coherent hr) _ (e ▸ hm)
    rcases R.steady_step hr h.steady hs with less | ⟨steady, hret⟩
    · exact .inl (.inl less)
    have hat := h.of_ne hs hq steady
    by_cases hm' : q ∈ t.session.mon.waiting (.lock k)
    · exact .inr ⟨⟨hat, hm'⟩, R.distance_step hr hs hret hm hm'⟩
    · exact .inl (.inr ⟨hat, hs.woken_of_ne (R.coherent hr).sound hq hm hm'⟩)

/-- Whoever waits for the lock and does not retry gets on. -/
theorem works_queued (fair : x.Fair (Threads.Able π) Eq) (w : ℕ) (x₀ : Mem) (q : P) :
    x.LeadsTo (fun s => s.Steady k level retries w x₀ ∧
        q ∈ s.session.mon.waiting (.lock k) ∧ retries q (s.loc q) = false)
      (fun s => s.toDo level retries < w) := by
  intro n ⟨steady, hm, hret⟩
  obtain ⟨c, hc, -⟩ := (R.coherent (x.reachable n)).sound.pending _ q hm
  have inside : (x.state n).At k level retries w x₀ q ((x.state n).loc q) (some c) :=
    ⟨steady, rfl, hc⟩
  obtain ⟨m, hm, less | ⟨h, awake⟩⟩ := R.lets_in fair n ⟨inside, hm⟩
  · exact ⟨m, hm, less⟩
  · obtain ⟨next, act⟩ := (R.coherent (x.reachable m)).called q c h.pending
    obtain ⟨j, hj, less⟩ := R.works fair w q m
      ⟨h.steady.toDo, ⟨by simp [act], awake⟩, h.loc ▸ hret⟩
    exact ⟨j, hm.le.trans hj, less⟩

/-- The process that lets the lock go goes on. -/
theorem releases (fair : x.Fair (Threads.Able π) Eq) {l next : Loc q}
    (act : π q l = .call (.release k) next) : x.LeadsTo (Threads.On k level retries w x₀ q l)
      (fun s => s.toDo level retries < w ∨ s.At k level retries w x₀ q next none) := by
  intro n ⟨steady, hloc⟩
  have coherent := R.coherent (x.reachable n)
  have outside : (x.state n).session.pending q = none := by
    cases hp : (x.state n).session.pending q with
    | none => rfl
    | some c =>
        obtain ⟨l', act'⟩ := coherent.called q c hp
        rw [hloc, act] at act'
        obtain ⟨rfl, -⟩ := Action.call.inj act'
        exact absurd rfl (coherent.sound.sleeps q _ hp)
  obtain ⟨m, hm, less | there | ⟨-, v, hv, -⟩⟩ := R.calls fair act n ⟨steady, hloc, outside⟩
  · exact ⟨m, hm, .inl less⟩
  · exact ⟨m, hm, .inr there⟩
  · cases hv

/-- The process that asks for the lock gets it. -/
theorem acquires (fair : x.Fair (Threads.Able π) Eq) {l next : Loc q}
    (act : π q l = .call (.acquire k) next) : x.LeadsTo (Threads.On k level retries w x₀ q l)
      (fun s => s.toDo level retries < w ∨ s.At k level retries w x₀ q next none) := by
  have queued : x.LeadsTo (fun s => s.At k level retries w x₀ q l (some (.acquire k)) ∧
      q ∈ s.session.mon.waiting (.lock k))
      (fun s => s.toDo level retries < w ∨ s.At k level retries w x₀ q next none) :=
    (R.lets_in fair).or_trans (R.wakes fair act)
  intro n ⟨steady, hloc⟩
  have coherent := R.coherent (x.reachable n)
  cases hp : (x.state n).session.pending q with
  | none =>
      obtain ⟨m, hm, less | there | ⟨inside, v, hv, hin⟩⟩ := R.calls fair act n ⟨steady, hloc, hp⟩
      · exact ⟨m, hm, .inl less⟩
      · exact ⟨m, hm, .inr there⟩
      · obtain rfl := Option.some.inj hv
        obtain ⟨j, hj, h⟩ := queued m ⟨inside, hin⟩
        exact ⟨j, hm.le.trans hj, h⟩
  | some c =>
      obtain ⟨l', act'⟩ := coherent.called q c hp
      rw [hloc, act] at act'
      obtain ⟨rfl, -⟩ := Action.call.inj act'
      by_cases awake : (x.state n).session.Awake q
      · exact R.wakes fair act n ⟨⟨steady, hloc, hp⟩, awake⟩
      · obtain ⟨v, hv⟩ := not_forall_not.mp awake
        obtain ⟨c, hc, e⟩ := coherent.sound.pending v q hv
        obtain rfl := Option.some.inj (hp.symm.trans hc)
        obtain rfl := Option.some.inj e
        exact queued n ⟨⟨steady, hloc, hp⟩, hv⟩

omit R in
/-- What a process comes to at the next local state. -/
theorem on_at {l : Loc q} {Q : Threads P S L C Loc Mem → Prop}
    (h : x.LeadsTo (Threads.On k level retries w x₀ q l) Q) :
    x.LeadsTo (Threads.At k level retries w x₀ q l none) Q :=
  System.Execution.LeadsTo.trans (.of_imp fun _ _ h => ⟨h.steady, h.loc⟩) h

/-- A program comes to its end if something gets done whenever all who could act retry. -/
theorem terminates (fair : x.Fair (Threads.Able π) Eq)
    (tries : ∀ n, (∃ p, π p ((x.state n).loc p) ≠ .stop) →
      (∀ p, Threads.Able π p (x.state n) → retries p ((x.state n).loc p) = true) →
      ∃ m ≥ n, (x.state m).toDo level retries < (x.state n).toDo level retries) :
    ∃ n, ∀ p, π p ((x.state n).loc p) = .stop := by
  have ends : x.LeadsTo (fun _ => True) fun s => ∀ p, π p (s.loc p) = .stop := by
    refine System.Execution.LeadsTo.descend (f := Threads.toDo level retries) ?_
    rintro w n ⟨-, rfl⟩
    by_cases busy : ∃ p, π p ((x.state n).loc p) ≠ .stop
    · suffices less : ∃ m ≥ n, (x.state m).toDo level retries < (x.state n).toDo level retries from
        less.imp fun m ⟨hm, h⟩ => ⟨hm, .inr ⟨trivial, h⟩⟩
      by_cases trying : ∀ p, Threads.Able π p (x.state n) → retries p ((x.state n).loc p) = true
      · exact tries n busy trying
      · push Not at trying
        obtain ⟨p, able, hret⟩ := trying
        exact R.works fair _ p n ⟨rfl, able, Bool.eq_false_iff.mpr hret⟩
    · exact ⟨n, le_rfl, .inl (not_exists_not.mp busy)⟩
  obtain ⟨n, -, h⟩ := ends 0 trivial
  exact ⟨n, h⟩

end Program.Retrying

end DlxOs.Monitors
