import DlxOs.Kernel.Beginnings
import DlxOs.Library.Retries

/-!
# Fair executions of programs on the kernel

An execution of the kernel with a program on it goes on for ever, with timer
interrupts and other processes at any time. It is fair to the program if a
process of it that has work to do, and from some time on stays in the run
queue, gets on. Then the program's own execution is fair.
-/

namespace DlxOs.Kernel

open Queue Monitors Transition

variable {S L C P : Type*} {Loc : P → Type*} {Mem : Type*} [DecidableEq P] [DecidableEq S]
  [DecidableEq L] [DecidableEq C] {ν : Handles S L C} {π : Program P S L C Loc Mem}
  {start : Threads P S L C Loc Mem} {h h' : Hosted P Loc Mem} {l : HostedEvent P} {p : P}

/-- The process has work to do and is in the run queue of the kernel. -/
def Hosted.Able (π : Program P S L C Loc Mem) (p : P) (h : Hosted P Loc Mem) : Prop :=
  π p (h.loc p) ≠ .stop ∧ ∃ r, h.place p = .runs r ∧ r ∈ h.machine.kernel.sched.run

/-- The execution is fair to the program. -/
def FairTo (x : (hostedSystem π ν start).Execution) : Prop :=
  x.Fair (Hosted.Able π) fun p l => l.worker = some p

omit [DecidableEq S] [DecidableEq L] [DecidableEq C] in
/-- A process of the program is where it was, or is forked in this step, or exits in it. -/
theorem Hosted.Step.place_cases (hs : h.Step π ν l h') (p : P) : h'.place p = h.place p ∨
    h.place p = .unborn ∧ (∃ r, h'.place p = .runs r) ∨
    l = .exit p ∧ π p (h.loc p) = .stop ∧ (∃ r, h.place p = .runs r) ∧ h'.place p = .gone := by
  cases hs with
  | @born q a m r unborn hs =>
      by_cases e : p = q
      · subst e
        exact .inr (.inl ⟨unborn, r, by simp [setPlace]⟩)
      · exact .inl (by simp [setPlace, e])
  | @exit q r m there act hs =>
      by_cases e : p = q
      · subst e
        exact .inr (.inr ⟨rfl, act, ⟨r, there⟩, by simp [setPlace]⟩)
      · exact .inl (by simp [setPlace, e])
  | @request _ _ _ _ _ v => cases v <;> exact .inl rfl
  | _ => exact .inl rfl

omit [DecidableEq S] [DecidableEq L] [DecidableEq C] in
/-- Who has been forked stays forked. -/
theorem Hosted.Step.forked (hs : h.Step π ν l h') (hp : h.place p ≠ .unborn) :
    h'.place p ≠ .unborn := by
  rcases hs.place_cases p with same | ⟨unborn, -⟩ | ⟨-, -, -, gone⟩
  · rwa [same]
  · exact absurd unborn hp
  · rw [gone]
    nofun

section Simulated

variable (fresh : start.Fresh)
  (quiet : ∀ p l s next, ν.common s → π p l ≠ .call (.semWait s) next)
include fresh quiet

/-- Who has been forked, has work to do and is awake in the program can run on the kernel. -/
theorem Hosted.able_of_awake {σ : Session P S L C} (hr : (hostedSystem π ν start).Reachable h)
    (own : (π.system start).Reachable (h.threads σ)) (shown : h.Shown ν σ)
    (forked : h.place p ≠ .unborn) (able : Threads.Able π p (h.threads σ)) :
    Hosted.Able π p h := by
  obtain ⟨busy, awake⟩ := able
  refine ⟨busy, ?_⟩
  cases there : h.place p with
  | unborn => exact absurd there forked
  | gone => exact absurd (hosted_gone hr there) busy
  | runs r =>
      have coherent := Threads.reachable_coherent fresh own
      exact ⟨r, rfl, shown.runnable coherent quiet there awake⟩

variable (lets : ∀ s, (π.system start).Reachable s → ∀ p, π p (s.loc p) = .stop →
  ∀ k, s.session.mon.owner k ≠ some p)
include lets

/-- A fair execution on the kernel, in which all processes of the program are forked at some time,
is a fair execution of the program. -/
theorem FairTo.own {x : (hostedSystem π ν start).Execution} (fair : FairTo x)
    (forked : ∃ n, ∀ p, (x.state n).place p ≠ .unborn) :
    ∃ y : (π.system start).Execution, (∀ n, (y.state n).loc = (x.state n).loc) ∧
      y.Fair (Threads.Able π) Eq := by
  obtain ⟨y, hy⟩ := x.simulated (N := π.system start) (f := HostedEvent.worker)
    (R := fun h s => h.threads s.session = s ∧ h.Shown ν s.session)
    (fun h hb => ⟨start, rfl, by rw [Hosted.threads, hb.loc, hb.mem], hb.shown fresh⟩)
    fun h l h' s hs ⟨e, shown⟩ hstep => by
      obtain ⟨σ, shown', ⟨idle, same⟩ | ⟨p, works, step⟩⟩ :=
        hstep.threads fresh quiet lets (e.symm ▸ hs) shown
      · obtain rfl : σ = s.session := congrArg Threads.session (same.trans e)
        exact ⟨s, ⟨same.trans e, shown'⟩, .inl ⟨idle, rfl⟩⟩
      · exact ⟨h'.threads σ, ⟨rfl, shown'⟩, .inr ⟨p, works, e ▸ step⟩⟩
  refine ⟨y, fun n => (congrArg Threads.loc (hy n).1.1).symm, fun p n able => ?_⟩
  obtain ⟨n₀, forked⟩ := forked
  have runs : ∀ m ≥ max n n₀, Hosted.Able π p (x.state m) := by
    intro m hm
    have born : (x.state m).place p ≠ .unborn :=
      x.lasts (P := fun h => h.place p ≠ .unborn) (fun _ _ _ _ hp hs => hs.forked hp)
        ((le_max_right _ _).trans hm) (forked p)
    obtain ⟨e, shown⟩ := (hy m).1
    exact Hosted.able_of_awake fresh quiet (x.reachable m) (e.symm ▸ y.reachable m) shown born
      (e.symm ▸ able m ((le_max_left _ _).trans hm))
  obtain ⟨m, hm, l, hl, works⟩ := fair p _ runs
  refine ⟨m, (le_max_left _ _).trans hm, p, ?_, rfl⟩
  rw [(hy m).2, hl]
  exact works

/-- A fair execution on the kernel, in which all processes of the program are forked at some time,
comes to a state in which all have stopped, if the program's own fair executions do. -/
theorem hosted_terminates
    (ends : ∀ y : (π.system start).Execution, y.Fair (Threads.Able π) Eq →
      ∃ n, ∀ p, π p ((y.state n).loc p) = .stop)
    {x : (hostedSystem π ν start).Execution} (fair : FairTo x)
    (forked : ∃ n, ∀ p, (x.state n).place p ≠ .unborn) :
    ∃ n, ∀ p, π p ((x.state n).loc p) = .stop := by
  obtain ⟨y, loc, fairOwn⟩ := fair.own fresh quiet lets forked
  exact (ends y fairOwn).imp fun n stopped p => loc n ▸ stopped p

end Simulated

/-- A program that comes to its end in its own fair executions has a fair execution on the kernel,
in which all its processes are forked. -/
theorem exists_fairTo [Fintype P] [Encodable P] (fresh : start.Fresh)
    (asks : ∀ (ν : Handles S L C) p l c next, π p l = .call c next → ∃ sys, ν.request c = some sys)
    (ends : ∀ y : (π.system start).Execution, y.Fair (Threads.Able π) Eq →
      ∃ n, ∀ p, π p ((y.state n).loc p) = .stop)
    (common : S → Prop) [Fintype S] [Fintype L] [Fintype C] (hS : Fintype.card S ≤ maxSems)
    (hL : Fintype.card L ≤ maxLocks) (hC : Fintype.card C ≤ maxConds)
    (hP : Fintype.card P + 2 ≤ processMaxProcs) :
    ∃ (ν : Handles S L C) (x : (hostedSystem π ν start).Execution), ν.common = common ∧
      FairTo x ∧ ∃ n, ∀ p, (x.state n).place p ≠ .unborn := by
  have acting (s : Threads P S L C Loc Mem) (p : P) (hr : (π.system start).Reachable s)
      (able : Threads.Able π p s) : ∃ e t, p = e ∧ (π.system start).Step s e t := by
    obtain ⟨t, hs⟩ := able.steps (Threads.reachable_coherent fresh hr)
      (Threads.reachable_fixed fresh hr).2
    exact ⟨p, t, rfl, hs⟩
  obtain ⟨y, -, fair⟩ := System.exists_fair rfl acting
  obtain ⟨n, stopped⟩ := ends y fair
  obtain ⟨ν, h, p, q, hν, hb, scene⟩ := exists_begins start common hS hL hC
  have room : Fintype.card P ≤ h.machine.kernel.sched.free.length := by
    have := scene.length_free
    omega
  obtain ⟨es, h', run, e, -, attended⟩ := hosted_realizes (ν := ν.unshared) fresh
    (fun _ _ _ _ => nofun) (asks ν.unshared) hb.unshared (z := p) (by simp [scene.run])
    (scene.outside p) room (y.reachable n)
  obtain ⟨x, k, rest⟩ := (Hosted.shared_run run).unrestricted.followed hb (.idle h')
  refine ⟨ν, x, hν, fun a m able => ?_, k, fun a => ?_⟩
  -- Nobody has work to do any more, and nobody is passed over.
  · have busy := (able (k + m) (Nat.le_add_left ..)).1
    have loc : h'.loc = (y.state n).loc := congrArg Threads.loc e
    rw [(rest m).1] at busy
    exact absurd (loc ▸ stopped a) busy
  · obtain ⟨r, hr⟩ := attended.forked a
    rw [show x.state k = h' from (rest 0).1, hr]
    simp

end DlxOs.Kernel
