import DlxOs.Kernel.Fairness
import DlxOs.Kernel.Turns

/-!
# The scheduler is fair

Timer interrupts bring whoever is in the run queue to its head, unless exits
pass over it again and again. So an execution is fair to a program if the timer
goes on, other processes exit only so often, and a process of the program that
has one turn after the other gets on in one of them.
-/

namespace DlxOs.Kernel

open Queue Monitors Transition

variable {S L C P : Type*} {Loc : P → Type*} {Mem : Type*} [DecidableEq P] [DecidableEq S]
  [DecidableEq L] [DecidableEq C] {ν : Handles S L C} {π : Program P S L C Loc Mem}
  {start : Threads P S L C Loc Mem} {h h' : Hosted P Loc Mem} {l : HostedEvent P} {R : PcbPtr}
  {k : ℕ}

/-- Somebody exits. -/
def HostedEvent.Exits : HostedEvent P → Prop
  | .elsewhere (.exit _) => True
  | .exit _ => True
  | _ => False

/-- The process of the program is the current one. -/
def Hosted.Current (p : P) (h : Hosted P Loc Mem) : Prop :=
  ∃ r, h.place p = .runs r ∧ h.machine.kernel.currentPCB = some r

/-- The timer goes on, a process of the program that has work to do and one turn after the other
gets on, and other processes exit only so often. -/
structure Timed (x : (hostedSystem π ν start).Execution) : Prop where
  ticks : ∀ n, ∃ m ≥ n, x.event m = some (.elsewhere .tick)
  turns : ∀ p n, (∀ m ≥ n, Hosted.Able π p (x.state m)) →
    (∀ m ≥ n, ∃ k ≥ m, (x.state k).Current p) →
    ∃ m ≥ n, ∃ l, x.event m = some l ∧ l.worker = some p
  exits : ∃ n, ∀ m ≥ n, ∀ q, x.event m ≠ some (.elsewhere (.exit q))

/-- Nobody moves back in the run queue while nobody exits, and with the timer everybody behind the
head moves up. -/
theorem Hosted.Step.rises (hr : (hostedSystem π ν start).Reachable h) (hs : h.Step π ν l h')
    (hl : ¬ l.Exits) (hk : h.machine.kernel.sched.run[k + 1]? = some R) :
    ∃ j ≤ k + 1, h'.machine.kernel.sched.run[j]? = some R ∧ (l = .elsewhere .tick → j ≤ k) := by
  have inv := reachable_inv (hosted_machine hr)
  have moved : ∀ {e m}, h.machine.Step e m → (∀ q, e ≠ .exit q) →
      ∃ j, m.kernel.sched.run[j]? = some R ∧ j + e.schedules ≤ k + 1 := fun {e _} hs he =>
    inv.position hs (fun passed => by cases e <;> first | exact passed | exact he _ rfl) hk
  cases hs with
  | @elsewhere e m hs he =>
      obtain ⟨j, hj, hle⟩ := moved hs (fun q e => hl (by rw [e]; trivial))
      refine ⟨j, (Nat.le_add_right ..).trans hle, hj, fun tick => ?_⟩
      obtain rfl := HostedEvent.elsewhere.inj tick
      exact Nat.le_of_succ_le_succ hle
  | born unborn hs =>
      obtain ⟨j, hj, hle⟩ := moved hs nofun
      exact ⟨j, hle, hj, nofun⟩
  | compute => exact ⟨k + 1, le_rfl, hk, nofun⟩
  | @request p r c next sys v m there act req hs =>
      obtain ⟨j, hj, hle⟩ := moved hs nofun
      refine ⟨j, (Nat.le_add_right ..).trans hle, ?_, nofun⟩
      cases v <;> exact hj
  | resume there act hs =>
      obtain ⟨j, hj, hle⟩ := moved hs nofun
      exact ⟨j, hle, hj, nofun⟩
  | exit => exact absurd trivial hl

variable {x : (hostedSystem π ν start).Execution}

/-- Once nobody exits any more, the timer brings whoever is in the run queue to its head. -/
theorem comes_to_head (ticks : ∀ n, ∃ m ≥ n, x.event m = some (.elsewhere .tick)) {n : ℕ}
    (exits : ∀ m ≥ n, ∀ l, x.event m = some l → ¬ l.Exits) (k : ℕ) {m : ℕ} (hm : n ≤ m)
    (hk : (x.state m).machine.kernel.sched.run[k]? = some R) :
    ∃ i ≥ m, (x.state i).machine.kernel.currentPCB = some R := by
  have head : ∀ i, (x.state i).machine.kernel.sched.run[0]? = some R →
      (x.state i).machine.kernel.currentPCB = some R := fun i hi => by
    rw [(reachable_inv (hosted_machine (x.reachable i))).current, List.head?_eq_getElem?, hi]
  induction k using Nat.strong_induction_on generalizing m with
  | _ k ih =>
      cases k with
      | zero => exact ⟨m, le_rfl, head m hk⟩
      | succ k =>
          by_contra never
          push Not at never
          -- Until the next interrupt it may move up, but not to the head.
          have waits : ∀ i ≥ m, ∃ j ≤ k, (x.state i).machine.kernel.sched.run[j + 1]? = some R := by
            intro i hi
            induction i, hi using Nat.le_induction with
            | base => exact ⟨k, le_rfl, hk⟩
            | succ i hi waits =>
                obtain ⟨j, hj, hR⟩ := waits
                cases he : x.event i with
                | none => exact ⟨j, hj, (x.still i he).symm ▸ hR⟩
                | some l =>
                    obtain ⟨j', hj', hR', -⟩ := Hosted.Step.rises (x.reachable i)
                      (x.step i l he) (exits i (hm.trans hi) l he) hR
                    cases j' with
                    | zero => exact absurd (head _ hR') (never _ (hi.trans i.le_succ))
                    | succ j' => exact ⟨j', (Nat.le_of_succ_le_succ hj').trans hj, hR'⟩
          obtain ⟨t, ht, tick⟩ := ticks m
          obtain ⟨j, hj, hR⟩ := waits t ht
          obtain ⟨j', -, hR', up⟩ := Hosted.Step.rises (x.reachable t) (x.step t _ tick)
            (exits t (hm.trans ht) _ tick) hR
          obtain ⟨i, hi, current⟩ := ih j' (Nat.lt_succ_of_le ((up rfl).trans hj))
            ((hm.trans ht).trans t.le_succ) hR'
          exact never i ((ht.trans t.le_succ).trans hi) current

omit [DecidableEq S] [DecidableEq L] [DecidableEq C] in
theorem Hosted.Step.exits {p : P} (hs : h.Step π ν (.exit p) h') :
    (∃ r, h.place p = .runs r) ∧ h'.place p = .gone := by
  cases hs with
  | exit there act hs => exact ⟨⟨_, there⟩, by simp [setPlace]⟩

/-- The processes of the program exit only so often. -/
theorem exits_end [Fintype P] (x : (hostedSystem π ν start).Execution) :
    ∃ n, ∀ m ≥ n, ∀ p, x.event m ≠ some (.exit p) := by
  have once : ∀ p, ∃ n, ∀ m ≥ n, x.event m ≠ some (.exit p) := by
    intro p
    by_cases exits : ∃ m, x.event m = some (.exit p)
    · obtain ⟨n, exit⟩ := exits
      have gone := (x.step n _ exit).exits.2
      refine ⟨n + 1, fun m hm again => ?_⟩
      have stays : (x.state m).place p = .gone :=
        x.lasts (P := fun h => h.place p = .gone) (fun h l h' _ hp hs => by
          rcases hs.place_cases p with same | ⟨unborn, -⟩ | ⟨-, -, ⟨r, there⟩, -⟩
          · rwa [same]
          · cases unborn.symm.trans hp
          · cases there.symm.trans hp) hm gone
      obtain ⟨r, there⟩ := (x.step m _ again).exits.1
      cases there.symm.trans stays
    · exact ⟨0, fun m _ exit => exits ⟨m, exit⟩⟩
  choose f hf using once
  exact ⟨Finset.univ.sup f, fun m hm p => hf p m ((Finset.le_sup (Finset.mem_univ p)).trans hm)⟩

/-- `ProcessSchedule` passes over no process that stays in the run queue: if the timer goes on,
other processes exit only so often, and a process of the program that has one turn after the other
gets on in one of them, the execution is fair. -/
theorem scheduler_is_fair [Fintype P] (timed : Timed x) : FairTo x := by
  obtain ⟨n₁, others⟩ := timed.exits
  obtain ⟨n₂, own⟩ := exits_end x
  intro p n able
  refine timed.turns p n able fun m hm => ?_
  let N := max m (max n₁ n₂)
  have hN : m ≤ N := le_max_left _ _
  obtain ⟨-, r, there, hr⟩ := able N (hm.trans hN)
  obtain ⟨k, hk⟩ := List.getElem?_of_mem hr
  have exits : ∀ i ≥ N, ∀ l, x.event i = some l → ¬ l.Exits := by
    rintro i hi l he hl
    have h₁ : n₁ ≤ i := ((le_max_left _ _).trans (le_max_right _ _)).trans hi
    have h₂ : n₂ ≤ i := ((le_max_right _ _).trans (le_max_right _ _)).trans hi
    cases l with
    | elsewhere e =>
        cases e with
        | exit q => exact others i h₁ q he
        | _ => exact hl
    | exit q => exact own i h₂ q he
    | _ => exact hl
  obtain ⟨i, hi, current⟩ := comes_to_head timed.ticks exits k le_rfl hk
  have stays : (x.state i).place p = .runs r := by
    clear current
    induction i, hi using Nat.le_induction with
    | base => exact there
    | succ i hi ih =>
        cases he : x.event i with
        | none => rwa [x.still i he]
        | some l =>
            rcases (x.step i l he).place_cases p with same | ⟨unborn, -⟩ | ⟨rfl, -⟩
            · exact same.trans ih
            · cases unborn.symm.trans ih
            · exact absurd trivial (exits i hi _ he)
  exact ⟨i, hN.trans hi, r, stays, current⟩

/-! ### A process that has one turn after the other -/

/-- A process that computes for ever. -/
def spin : Program Unit Empty Empty Empty (fun _ => Unit) Unit := fun _ _ =>
  .compute fun x => ((), x)

def spinStart : Threads Unit Empty Empty Empty (fun _ => Unit) Unit where
  session := ⟨⟨fun _ => [], nofun, nofun, nofun⟩, fun _ => none, fun _ => true⟩
  loc _ := ()
  mem := ()

/-- It takes turns with two other processes that can run, and at time `n` the run queue is this
one. -/
def spinQueue (p q r : PcbPtr) (n : ℕ) : List PcbPtr :=
  if n % 4 = 0 then [p, q, r] else if n % 4 = 1 then [q, r, p] else [r, p, q]

/-- The timer interrupts whoever runs; at its turn the process computes before. -/
def spinEvent (n : ℕ) : HostedEvent Unit :=
  if n % 4 = 2 then .compute () else .elsewhere .tick

structure Spins (p q r : PcbPtr) (n : ℕ) (h : Hosted Unit (fun _ => Unit) Unit) : Prop where
  place : h.place () = .runs r
  run : h.machine.kernel.sched.run = spinQueue p q r n
  outside : h.machine.pending r = none

variable {μ : Handles Empty Empty Empty} {g : Hosted Unit (fun _ => Unit) Unit} {p q r : PcbPtr}
  {n : ℕ}

theorem Spins.tick (hg : Spins p q r n g) (hr : (hostedSystem spin μ spinStart).Reachable g)
    {z : PcbPtr} {rest : List PcbPtr} (head : spinQueue p q r n = z :: rest)
    (back : spinQueue p q r (n + 1) = rest ++ [z]) :
    ∃ g', g.Step spin μ (.elsewhere .tick) g' ∧ Spins p q r (n + 1) g' := by
  obtain ⟨K, ticks, run, -⟩ :=
    (reachable_inv (hosted_machine hr)).tick_steps (hg.run.trans head)
  exact ⟨_, .elsewhere ticks trivial, hg.place, run.trans back.symm, hg.outside⟩

theorem Spins.step (hg : Spins p q r n g) (hr : (hostedSystem spin μ spinStart).Reachable g) :
    ∃ g', g.Step spin μ (spinEvent n) g' ∧ Spins p q r (n + 1) g' := by
  obtain hn | hn | hn | hn : n % 4 = 0 ∨ n % 4 = 1 ∨ n % 4 = 2 ∨ n % 4 = 3 := by omega
  · rw [spinEvent, if_neg (by omega)]
    refine hg.tick hr (?_ : spinQueue p q r n = p :: [q, r]) ?_
    all_goals simp [spinQueue, hn, Nat.add_mod]
  · rw [spinEvent, if_neg (by omega)]
    refine hg.tick hr (?_ : spinQueue p q r n = q :: [r, p]) ?_
    all_goals simp [spinQueue, hn, Nat.add_mod]
  · rw [spinEvent, if_pos hn]
    have run : g.machine.kernel.sched.run = [r, p, q] := hg.run.trans (by simp [spinQueue, hn])
    have current : g.machine.kernel.currentPCB = some r := by
      rw [(reachable_inv (hosted_machine hr)).current, run]
      rfl
    refine ⟨_, .compute hg.place ⟨current, hg.outside⟩ rfl, hg.place, run.trans ?_, hg.outside⟩
    simp [spinQueue, hn, Nat.add_mod]
  · rw [spinEvent, if_neg (by omega)]
    refine hg.tick hr (?_ : spinQueue p q r n = r :: [p, q]) ?_
    all_goals simp [spinQueue, hn, Nat.add_mod]

/-- It has been forked beside two other processes. -/
theorem exists_spins : ∃ (μ : Handles Empty Empty Empty) (g g' : Hosted Unit (fun _ => Unit) Unit)
    (es : List (HostedEvent Unit)) (p q r : PcbPtr), g.Begins μ spinStart ∧
    (hostedSystem spin μ spinStart).Run g es g' ∧ Spins p q r 0 g' := by
  obtain ⟨μ, g, p, q, -, hb, scene⟩ :=
    exists_begins spinStart (fun _ => False) (by decide) (by decide) (by decide)
  obtain ⟨r, rest, hfree⟩ := List.exists_cons_of_ne_nil scene.free_ne_nil
  obtain ⟨K, forks, -, hs, -⟩ := scene.inv.fork_steps hfree (a := ⟨1, 1, none⟩) (by simp)
    (by simp) (by simp)
  have run : K.sched.run = [p, q, r] := by
    rw [hs, scene.run]
    rfl
  exact ⟨μ, g, _, _, p, q, r, hb, .cons (.born (hb.unborn ()) forks) (.nil _),
    by simp [Hosted.setPlace], run, scene.outside r⟩

/-- One of three processes on the run queue computes at each of its turns. -/
theorem scheduler_is_fair_spin : ∃ (μ : Handles Empty Empty Empty)
    (x : (hostedSystem spin μ spinStart).Execution) (n : ℕ), Timed x ∧
    (∀ m ≥ n, (x.state m).machine.kernel.sched.run.length = 3) ∧ FairTo x := by
  obtain ⟨μ, g, g', es, p, q, r, hb, run, spins⟩ := exists_spins
  have reach := System.Reachable.run (.init hb) run
  obtain ⟨y, follows⟩ : ∃ y : ((hostedSystem spin μ spinStart).startingAt g').Execution,
      ∀ n, y.event n = some (spinEvent n) ∧ Spins p q r n (y.state n) :=
    System.exists_following rfl spins fun n s hr hs => hs.step (reach.of_startingAt hr)
  obtain ⟨x, n, same⟩ := run.followed hb y
  have happens (m : ℕ) : x.event (n + m) = some (spinEvent m) := (same m).2.trans (follows m).1
  have timed : Timed x := by
    refine ⟨fun m => ⟨n + 4 * m, by omega, ?_⟩, fun p m _ _ => ?_, n, fun m hm q he => ?_⟩
    · rw [happens, spinEvent, if_neg (by omega)]
    · refine ⟨n + (4 * m + 2), by omega, .compute (), ?_, rfl⟩
      rw [happens, spinEvent, if_pos (by omega)]
    · obtain ⟨k, rfl⟩ := Nat.exists_eq_add_of_le hm
      rw [happens, spinEvent] at he
      split_ifs at he <;> cases he
  refine ⟨μ, x, n, timed, fun m hm => ?_, scheduler_is_fair timed⟩
  obtain ⟨k, rfl⟩ := Nat.exists_eq_add_of_le hm
  rw [(same k).1, (follows k).2.run, spinQueue]
  split_ifs <;> rfl

end DlxOs.Kernel
