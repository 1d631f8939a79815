import DlxOs.Library.Balance
import DlxOs.Library.Execution
import DlxOs.Library.Loops

/-!
# The atmosphere

The injectors and reactions of `apps/q5`. Molecules are the counts of six
semaphores. `makeprocs` computes in advance how often each reaction happens,
and every process repeats its waits and signals that often.
-/

namespace DlxOs.Apps.Q5

open Monitors Transition

inductive Molecule
  | n3
  | h2o
  | n
  | h2
  | o2
  | no2
  deriving DecidableEq

/-- `s_procs_completed`, and the semaphores in the shared page -/
inductive Sem
  | procsCompleted
  | molecules (m : Molecule)
  deriving DecidableEq

/-- The index of an injector. -/
inductive Injector
  | iN3
  | iH2O
  deriving DecidableEq

/-- The index of a reaction. -/
inductive Reaction
  | r1
  | r2
  | r3
  deriving DecidableEq

instance : Fintype Injector := ⟨{.iN3, .iH2O}, fun i => by cases i <;> decide⟩

instance : Fintype Reaction := ⟨{.r1, .r2, .r3}, fun r => by cases r <;> decide⟩

abbrev Proc := Injector ⊕ Reaction

abbrev Op := Call Proc Sem Empty Empty

/-- A value of type `int`. -/
def int (z : ℤ) : ℤ := z.bmod (2 ^ 32)

/-- The numbers on the command line. -/
structure InjCount where
  n3 : ℤ
  h2o : ℤ

def injCount (a : InjCount) : Injector → ℤ
  | .iN3 => a.n3
  | .iH2O => a.h2o

/-- The number of reactions of each kind that `makeprocs` computes. -/
def expectedReactions (a : InjCount) : Reaction → ℤ
  | .r1 => a.n3
  | .r2 => a.h2o.tdiv 2
  | .r3 => if int (3 * a.n3) > a.h2o.tdiv 2 then a.h2o.tdiv 2 else int (3 * a.n3)

/-- How often a process goes through its loop; it counts its argument down to zero. -/
def rounds (a : InjCount) : Proc → ℕ
  | .inl i => (injCount a i).toNat
  | .inr r => (expectedReactions a r).toNat

def semWait (m : Molecule) : Op := .semWait (.molecules m)

def semSignal (m : Molecule) : Op := .semSignal (.molecules m)

/-- What a process does in each round of its loop. -/
def body : Proc → List Op
  | .inl .iN3 => [semSignal .n3]
  | .inl .iH2O => [semSignal .h2o]
  | .inr .r1 => [semWait .n3, semSignal .n, semSignal .n, semSignal .n]
  | .inr .r2 => [semWait .h2o, semWait .h2o, semSignal .h2, semSignal .h2, semSignal .o2]
  | .inr .r3 => [semWait .n, semWait .o2, semSignal .no2]

abbrev Loc (a : InjCount) (p : Proc) := Loop (rounds a p) (body p)

/-- The programs of the five processes. -/
def program (a : InjCount) : Program Proc Sem Empty Empty (Loc a) Unit
  | _, .round left c rest hleft hrest =>
    .call c (.goOn left hleft rest ((List.suffix_cons c rest).trans hrest))
  | _, .last => .call (.semSignal .procsCompleted) .finished
  | _, .finished => .stop

abbrev State (a : InjCount) := Threads Proc Sem Empty Empty (Loc a) Unit

/-- The processes at their start: `makeprocs` has created the semaphores. -/
def start (a : InjCount) : State a where
  session := ⟨⟨fun _ => [], fun | .procsCompleted => -4 | .molecules _ => 0, fun _ => none, id⟩,
    fun _ => none, fun _ => true⟩
  loc _ := .start _ _
  mem := ()

/-- The runs of the processes. -/
abbrev system (a : InjCount) : System (State a) Proc := (program a).system (start a)

/-- The molecules of a kind in the atmosphere. -/
abbrev State.molecules {a : InjCount} (s : State a) (m : Molecule) : ℤ :=
  s.session.mon.count (.molecules m)

def Finished {a : InjCount} {p : Proc} (l : Loc a p) : Prop := l = .finished

variable {a : InjCount} {s : State a}

theorem start_fresh : (start a).Fresh := ⟨fun _ => rfl, fun _ => rfl, fun _ => rfl, fun _ => rfl⟩

/-- The places of the processes tell how often they have signalled and waited for a molecule. -/
theorem counts (m : Molecule) : (program a).Counts (.molecules m)
    (fun _ l => l.made (semSignal m)) (fun _ l => l.made (semWait m)) := by
  constructor
  case call =>
    intro p l c l' act
    cases l with
    | round left d rest hleft hrest =>
        cases act
        exact ⟨Loop.made_goOn .., Loop.made_goOn ..⟩
    | last =>
        cases act
        exact ⟨rfl, rfl⟩
    | finished => cases act
  case compute =>
    intro p l f x act
    cases l <;> cases act

theorem body_ops {p : Proc} {c : Op} (hc : c ∈ body p) :
    ∃ m, c = semWait m ∨ c = semSignal m := by
  rcases p with (_ | _) | (_ | _ | _) <;>
    simp only [body, List.mem_cons, List.not_mem_nil, or_false] at hc
  · exact ⟨_, .inr hc⟩
  · exact ⟨_, .inr hc⟩
  · rcases hc with h | h | h | h
    exacts [⟨_, .inl h⟩, ⟨_, .inr h⟩, ⟨_, .inr h⟩, ⟨_, .inr h⟩]
  · rcases hc with h | h | h | h | h
    exacts [⟨_, .inl h⟩, ⟨_, .inl h⟩, ⟨_, .inr h⟩, ⟨_, .inr h⟩, ⟨_, .inr h⟩]
  · rcases hc with h | h | h
    exacts [⟨_, .inl h⟩, ⟨_, .inl h⟩, ⟨_, .inr h⟩]

/-- Who puts the molecule into the atmosphere. -/
def giver : Molecule → Proc
  | .n3 => .inl .iN3
  | .h2o => .inl .iH2O
  | .n => .inr .r1
  | .h2 => .inr .r2
  | .o2 => .inr .r2
  | .no2 => .inr .r3

/-- Who takes the molecule, if anybody does. -/
def taker : Molecule → Proc
  | .n3 => .inr .r1
  | .h2o => .inr .r2
  | _ => .inr .r3

/-- The molecules that a process gives in each round, and those that it takes. -/
def gives (p : Proc) (m : Molecule) : ℕ := (body p).count (semSignal m)

def takes (p : Proc) (m : Molecule) : ℕ := (body p).count (semWait m)

theorem gives_eq_zero {p : Proc} {m : Molecule} (h : p ≠ giver m) : gives p m = 0 := by
  rcases p with i | r
  · cases i <;> cases m <;> first | rfl | exact absurd rfl h
  · cases r <;> cases m <;> first | rfl | exact absurd rfl h

theorem takes_eq_zero {p : Proc} {m : Molecule} (h : p ≠ taker m) : takes p m = 0 := by
  rcases p with i | r
  · cases i <;> cases m <;> rfl
  · cases r <;> cases m <;> first | rfl | exact absurd rfl h

theorem sum_signals (s : State a) (m : Molecule) :
    ∑ p, (s.loc p).made (semSignal m) = (s.loc (giver m)).made (semSignal m) := by
  refine Finset.sum_eq_single _ (fun p _ hp => ?_) fun h => absurd (Finset.mem_univ _) h
  have := (s.loc p).made_le (semSignal m)
  rw [← gives, gives_eq_zero hp, Nat.mul_zero] at this
  exact Nat.le_zero.mp this

theorem sum_waits (s : State a) (m : Molecule) :
    ∑ p, (s.loc p).made (semWait m) = (s.loc (taker m)).made (semWait m) := by
  refine Finset.sum_eq_single _ (fun p _ hp => ?_) fun h => absurd (Finset.mem_univ _) h
  have := (s.loc p).made_le (semWait m)
  rw [← takes, takes_eq_zero hp, Nat.mul_zero] at this
  exact Nat.le_zero.mp this

/-- The counts on the command line make sense. -/
structure InjCount.Valid (a : InjCount) : Prop where
  n3 : 0 ≤ a.n3
  h2o : 0 ≤ a.h2o
  fits : 3 * a.n3 < 2 ^ 31

theorem InjCount.Valid.int_eq (h : a.Valid) : int (3 * a.n3) = 3 * a.n3 := by
  have := h.n3
  have := h.fits
  rw [int, Int.bmod_eq_of_le] <;> omega

/-- The reactions, as `makeprocs` computes them. -/
theorem InjCount.Valid.rounds_eq (h : a.Valid) :
    (rounds a (.inr .r1) : ℤ) = a.n3 ∧ (rounds a (.inr .r2) : ℤ) = a.h2o / 2 ∧
      (rounds a (.inr .r3) : ℤ) = min (3 * a.n3) (a.h2o / 2) := by
  have h3 := h.n3
  have hh := h.h2o
  have hd : a.h2o.tdiv 2 = a.h2o / 2 := Int.tdiv_eq_ediv_of_nonneg hh
  refine ⟨Int.toNat_of_nonneg h3, ?_, ?_⟩
  · rw [rounds, expectedReactions, hd]
    omega
  · rw [rounds, expectedReactions, hd, h.int_eq]
    split_ifs <;> omega

/-- Enough molecules are given of each kind. -/
theorem InjCount.Valid.enough (h : a.Valid) (m : Molecule) :
    rounds a (taker m) * takes (taker m) m ≤ rounds a (giver m) * gives (giver m) m := by
  obtain ⟨h1, h2, h3⟩ := h.rounds_eq
  have hn : (rounds a (.inl .iN3) : ℤ) = a.n3 := Int.toNat_of_nonneg h.n3
  have hh : (rounds a (.inl .iH2O) : ℤ) = a.h2o := Int.toNat_of_nonneg h.h2o
  cases m <;> simp only [taker, giver]
  · change _ * 1 ≤ _ * 1
    omega
  · change _ * 2 ≤ _ * 1
    omega
  · change _ * 1 ≤ _ * 3
    omega
  · exact Nat.zero_le _
  · change _ * 1 ≤ _ * 1
    omega
  · exact Nat.zero_le _

/-! ### No deadlock -/

/-- Who sleeps waits for a molecule that is still to be given. -/
theorem asleep_cases (h : (system a).Reachable s) {p : Proc} (asleep : ¬ s.session.Awake p) :
    ∃ m, p ∈ s.session.mon.waiting (.sem (.molecules m)) ∧
      (s.loc p).made (semWait m) < rounds a p * takes p m := by
  have hs := Threads.reachable_coherent start_fresh h
  obtain ⟨w, hw⟩ := not_forall_not.mp asleep
  obtain ⟨c, hc, e⟩ := hs.sound.pending w p hw
  obtain ⟨l', act⟩ := hs.called p c hc
  generalize s.loc p = l at act ⊢
  cases l with
  | round left d rest hleft hrest =>
      cases act
      have hmem : c ∈ body p := hrest.mem (List.mem_cons_self ..)
      obtain ⟨m, rfl⟩ : ∃ m, c = semWait m := by
        obtain ⟨m, rfl | rfl⟩ := body_ops hmem
        · exact ⟨m, rfl⟩
        · cases e
      cases e
      exact ⟨m, hw, Loop.made_lt hleft hrest⟩
  | last =>
      cases act
      cases e
  | finished => cases act

/-- Gives come before takes. -/
def rank : Proc → ℕ
  | .inl _ => 0
  | .inr .r3 => 2
  | .inr _ => 1

/-- When all unfinished processes sleep, each waits for one that has not finished and comes before
it. -/
theorem waits_for (ha : a.Valid) (h : (system a).Reachable s)
    (stuck : ∀ p, ¬ Finished (s.loc p) → ¬ s.session.Awake p) {p : Proc}
    (hp : ¬ Finished (s.loc p)) : ∃ q, rank q < rank p ∧ ¬ Finished (s.loc q) := by
  obtain ⟨m, hq, hlt⟩ := asleep_cases h (stuck p hp)
  have taken : 0 < takes p m := Nat.pos_of_ne_zero fun e => by simp [e] at hlt
  obtain rfl : p = taker m := by
    by_contra hne
    rw [takes_eq_zero hne] at taken
    exact lt_irrefl 0 taken
  refine ⟨giver m, ?_, fun hf => ?_⟩
  · cases m <;> first | decide | exact absurd taken (lt_irrefl 0)
  · have asleep : ∀ p, s.session.pending p = some (.semWait (.molecules m)) →
        ¬ s.session.Awake p := by
      intro p hp
      refine stuck p fun hf => ?_
      obtain ⟨l, act⟩ := (Threads.reachable_coherent start_fresh h).called p _ hp
      rw [show s.loc p = .finished from hf] at act
      cases act
    have balance := Threads.sum_taken_eq start_fresh (counts m) (fun p => Loop.made_start _)
      (fun p => Loop.made_start _) le_rfl h asleep (List.ne_nil_of_mem hq)
    have zero : (start a).session.mon.count (.molecules m) = 0 := rfl
    rw [sum_signals, sum_waits, show s.loc (giver m) = .finished from hf, zero, zero_add] at balance
    have all : (Loop.finished : Loc a (giver m)).made (semSignal m) =
      rounds a (giver m) * gives (giver m) m := rfl
    have enough := ha.enough m
    rw [all] at balance
    omega

/-- All processes have finished, or one that has not is awake. -/
theorem exists_awake (ha : a.Valid) (h : (system a).Reachable s)
    (hu : ∃ p, ¬ Finished (s.loc p)) : ∃ p, ¬ Finished (s.loc p) ∧ s.session.Awake p := by
  by_contra hne
  push Not at hne
  have none_of_rank : ∀ n p, rank p = n → Finished (s.loc p) := by
    intro n
    induction n using Nat.strong_induction_on with
    | _ n ih =>
      rintro p rfl
      by_contra hp
      obtain ⟨q, hlt, hq⟩ := waits_for ha h hne hp
      exact hq (ih _ hlt q rfl)
  obtain ⟨p, hp⟩ := hu
  exact hp (none_of_rank _ p rfl)

/-! ### The final counts -/

theorem finished_molecules (h : (system a).Reachable s) (hf : ∀ p, Finished (s.loc p))
    (m : Molecule) : s.molecules m + (rounds a (taker m) * takes (taker m) m : ℕ) =
      (rounds a (giver m) * gives (giver m) m : ℕ) := by
  have hs := Threads.reachable_coherent start_fresh h
  have outside : ∀ p, s.session.pending p = none := by
    intro p
    cases hp : s.session.pending p with
    | none => rfl
    | some c =>
        obtain ⟨l, act⟩ := hs.called p c hp
        rw [show s.loc p = .finished from hf p] at act
        cases act
  have queue : s.session.mon.waiting (.sem (.molecules m)) = [] := by
    refine List.eq_nil_iff_forall_not_mem.mpr fun p hp => ?_
    exact hs.sound.awake (outside p) _ hp
  have balance : s.molecules m + s.waits _ _ = 0 + (∑ p, (s.loc p).made (semSignal m) : ℕ) +
      (s.session.mon.waiting (.sem (.molecules m))).length :=
    Threads.reachable_balanced start_fresh (counts m) (fun p => Loop.made_start _)
      (fun p => Loop.made_start _) h
  rw [Threads.waits_eq, sum_waits, sum_signals, queue, show s.loc (giver m) = .finished from hf _,
    show s.loc (taker m) = .finished from hf _] at balance
  simpa [outside, Loop.made, takes, gives] using balance

/-- The simulation never has all its unfinished processes asleep, and when all have finished, the
atmosphere holds the molecules that the counts on the command line allow. -/
theorem atmosphere_completes (ha : a.Valid) (h : (system a).Reachable s) :
    ((∃ p, ¬ Finished (s.loc p)) → ∃ p, ¬ Finished (s.loc p) ∧ s.session.Awake p) ∧
    ((∀ p, Finished (s.loc p)) →
      s.molecules .n3 = 0 ∧ s.molecules .h2o = a.h2o % 2 ∧
      s.molecules .n = 3 * a.n3 - min (3 * a.n3) (a.h2o / 2) ∧
      s.molecules .h2 = 2 * (a.h2o / 2) ∧
      s.molecules .o2 = a.h2o / 2 - min (3 * a.n3) (a.h2o / 2) ∧
      s.molecules .no2 = min (3 * a.n3) (a.h2o / 2)) := by
  refine ⟨exists_awake ha h, fun hf => ?_⟩
  obtain ⟨h1, h2, h3⟩ := ha.rounds_eq
  have hn : (rounds a (.inl .iN3) : ℤ) = a.n3 := Int.toNat_of_nonneg ha.n3
  have hh : (rounds a (.inl .iH2O) : ℤ) = a.h2o := Int.toNat_of_nonneg ha.h2o
  have final := finished_molecules h hf
  refine ⟨?_, ?_, ?_, ?_, ?_, ?_⟩
  · have : s.molecules .n3 + (rounds a (.inr .r1) * 1 : ℕ) = (rounds a (.inl .iN3) * 1 : ℕ) := final .n3
    omega
  · have : s.molecules .h2o + (rounds a (.inr .r2) * 2 : ℕ) = (rounds a (.inl .iH2O) * 1 : ℕ) := final .h2o
    omega
  · have : s.molecules .n + (rounds a (.inr .r3) * 1 : ℕ) = (rounds a (.inr .r1) * 3 : ℕ) := final .n
    omega
  · have : s.molecules .h2 + (rounds a (.inr .r3) * 0 : ℕ) = (rounds a (.inr .r2) * 2 : ℕ) := final .h2
    omega
  · have : s.molecules .o2 + (rounds a (.inr .r3) * 1 : ℕ) = (rounds a (.inr .r2) * 1 : ℕ) := final .o2
    omega
  · have : s.molecules .no2 + (rounds a (.inr .r3) * 0 : ℕ) = (rounds a (.inr .r3) * 1 : ℕ) := final .no2
    omega

/-- One molecule of nitrogen and seven of water become three of nitrogen dioxide. -/
theorem atmosphere_completes_reactions : ∃ s : State ⟨1, 7⟩, (system ⟨1, 7⟩).Reachable s ∧
    (∀ p, Finished (s.loc p)) ∧ s.molecules .n3 = 0 ∧ s.molecules .h2o = 1 ∧
    s.molecules .n = 0 ∧ s.molecules .h2 = 6 ∧ s.molecules .o2 = 0 ∧ s.molecules .no2 = 3 := by
  obtain ⟨s, hs, hφ⟩ := Threads.exists_of_exec (program ⟨1, 7⟩) (start ⟨1, 7⟩)
    (φ := fun s : State ⟨1, 7⟩ => decide (∀ p, (s.loc p).ended = true))
    (List.replicate 2 (.inl .iN3) ++ List.replicate 8 (.inl .iH2O) ++ List.replicate 5 (.inr .r1) ++
      List.replicate 16 (.inr .r2) ++ List.replicate 10 (.inr .r3)) (by decide)
  have hf : ∀ p, Finished (s.loc p) := fun p => Loop.ended_iff.mp (of_decide_eq_true hφ p)
  exact ⟨s, hs, hf, (atmosphere_completes ⟨by decide, by decide, by decide⟩ hs).2 hf⟩

end DlxOs.Apps.Q5
