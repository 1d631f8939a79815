import DlxOs.Apps.Completion
import DlxOs.Apps.Q3.FivePairs
import DlxOs.Apps.Q4.Wakeups

/-!
# Children that can run

As long as a child has work to do, the kernel has some child to run: always
with the lock alone, with the semaphores for up to four pairs, with the
condition variables for as many pairs as the process table holds, and always in
the atmosphere. With semaphores and five pairs the timer can bring all children
to sleep for good.
-/

namespace DlxOs.Apps

open Monitors Kernel Transition

namespace Q2

variable {N : ℕ} {first : ℕ → Char} {s : State N} {p : Child N}

/-- A child with work to do is awake, or the owner of the lock is. -/
theorem exists_awake (h : (system N first).Reachable s) (hu : ∃ p, noted N p (s.loc p) ≠ .stop) :
    ∃ p, noted N p (s.loc p) ≠ .stop ∧ s.session.Awake p := by
  obtain ⟨p, hp⟩ := hu
  by_cases awake : s.session.Awake p
  · exact ⟨p, hp, awake⟩
  have hs := Threads.reachable_coherent begin_fresh h
  obtain ⟨w, hw⟩ := not_forall_not.mp awake
  obtain ⟨c, hc, e⟩ := hs.sound.pending w p hw
  obtain ⟨l, act⟩ := hs.called p c hc
  obtain rfl : WaitPoint.lock .lock = w := by
    cases c with
    | semWait t => exact absurd act (ne_semWait p _ t l)
    | acquire k => exact Option.some.inj e
    | wait b => exact b.elim
    | signal b => exact b.elim
    | _ => cases e
  obtain ⟨q, ho⟩ : ∃ q, s.session.mon.owner .lock = some q := by
    refine Option.ne_none_iff_exists'.mp fun free => ?_
    rw [hs.sound.free _ free] at hw
    cases hw
  refine ⟨q, fun stop => lets s h q stop _ ho, ?_⟩
  have guarded : s.Guarded .lock holds :=
    Threads.reachable_guarded begin_fresh disciplined (fun _ => rfl) begin_outside h
  refine (guarded.owner_awake hs.sound (fun _ => rfl) ho).resolve_right ?_
  rintro ⟨t, ht⟩
  obtain ⟨l, act⟩ := hs.called q _ ht
  exact ne_semWait q _ t l act

variable {ν : Handles Sem Lock Cond} {h : Hosted (Child N) (Loc N) (SharedBuffer × Record N)}

/-- As long as a child has work to do, the kernel has a child with work to do that can run. -/
theorem lock_ring_can_run (hr : (hostedSystem (noted N) ν (begin N first)).Reachable h)
    (forked : ∀ p, h.place p ≠ .unborn) (hu : ∃ p, noted N p (h.loc p) ≠ .stop) :
    ∃ p r, noted N p (h.loc p) ≠ .stop ∧ h.place p = .runs r ∧
      r ∈ h.machine.kernel.sched.run :=
  hosted_runs begin_fresh quiet lets (fun _ => exists_awake) hr forked hu

/-- The consumer of one pair sleeps, as the producer has the lock. -/
theorem lock_ring_can_run_asleep :
    ∃ (ν : Handles Sem Lock Cond) (h : Hosted (Child 1) (Loc 1) (SharedBuffer × Record 1)),
      (hostedSystem (noted 1) ν (begin 1 fun _ => 'x')).Reachable h ∧
      (∃ r, h.place (consumer 0) = .runs r ∧ r ∈ h.machine.kernel.sched.wait) ∧
      ∃ p r, noted 1 p (h.loc p) ≠ .stop ∧ h.place p = .runs r ∧
        r ∈ h.machine.kernel.sched.run := by
  obtain ⟨ν, h, s, common, hr, hs, hloc, -, forked, asleep⟩ := exists_hosted (π := noted 1)
    (begin_fresh : (begin 1 fun _ => 'x').Fresh) returns.asks (· = .procsCompleted) (by decide)
    (by decide) (by decide) (by decide) [producer 0, consumer 0] (by decide)
  have waits : (Threads.exec (noted 1) (begin 1 fun _ => 'x') [producer 0, consumer 0]).all fun s =>
      decide (s.session.mon.waiting (.lock .lock) = [consumer 0] ∧
        (s.loc (producer 0)).pc ≠ .finished) := by decide
  rw [hs, Option.all_some, decide_eq_true_iff] at waits
  refine ⟨ν, h, hr.unrestricted, asleep _ fun awake => awake (.lock .lock) (by simp [waits.1]),
    lock_ring_can_run hr.unrestricted forked ⟨producer 0, ?_⟩⟩
  rw [hloc]
  exact fun stop => waits.2 (Producer.stop_iff.mp (Program.noted_stop.mp stop))

end Q2

namespace Q3

variable {N : ℕ} {ν : Handles Sem Lock Cond}
  {h : Hosted (Child N) (Loc N) (SharedBuffer × Record N)}

theorem finished_iff (p : Child N) (l : Loc N p) : noted N p l = .stop ↔ Finished p l := by
  rw [noted, Program.noted_stop]
  cases p with
  | inl i =>
      obtain ⟨pc, d, c⟩ := l
      cases pc <;> simp [program, Producer.action, Finished]
  | inr j =>
      obtain ⟨pc, d, c, x⟩ := l
      cases pc <;> simp [program, Consumer.action, Finished]

/-- With at most four pairs, as long as a child has work to do, the kernel has a child with work to
do that can run. -/
theorem semaphore_ring_can_run (hN : N ≤ 4) (common : ∀ s, ν.common s → s = .procsCompleted)
    (hr : (hostedSystem (noted N) ν (begin N)).Reachable h) (forked : ∀ p, h.place p ≠ .unborn)
    (hu : ∃ p, noted N p (h.loc p) ≠ .stop) :
    ∃ p r, noted N p (h.loc p) ≠ .stop ∧ h.place p = .runs r ∧
      r ∈ h.machine.kernel.sched.run := by
  refine hosted_runs begin_fresh (quiet common) lets (fun s hs hu => ?_) hr forked hu
  by_contra hne
  push Not at hne
  obtain ⟨p, hp⟩ := hu
  have stuck : Stuck s := fun q hq => hne q ((finished_iff q _).not.mpr hq)
  have := stuck.many hs ⟨p, (finished_iff p _).not.mp hp⟩
  omega

/-- The consumer of one pair sleeps, as the producer has the lock. -/
theorem semaphore_ring_can_run_asleep :
    ∃ (ν : Handles Sem Lock Cond) (h : Hosted (Child 1) (Loc 1) (SharedBuffer × Record 1)),
      (hostedSystem (noted 1) ν (begin 1)).Reachable h ∧
      (∃ r, h.place (consumer 0) = .runs r ∧ r ∈ h.machine.kernel.sched.wait) ∧
      ∃ p r, noted 1 p (h.loc p) ≠ .stop ∧ h.place p = .runs r ∧
        r ∈ h.machine.kernel.sched.run := by
  obtain ⟨ν, h, s, common, hr, hs, hloc, -, forked, asleep⟩ := exists_hosted (π := noted 1)
    (begin_fresh : (begin 1).Fresh) returns.asks (· = .procsCompleted) (by decide) (by decide)
    (by decide) (by decide) [producer 0, producer 0, consumer 0] (by decide)
  have waits : (Threads.exec (noted 1) (begin 1) [producer 0, producer 0, consumer 0]).all fun s =>
      decide (s.session.mon.waiting (.lock .lock) = [consumer 0] ∧
        (s.loc (producer 0)).pc ≠ .finished) := by decide
  rw [hs, Option.all_some, decide_eq_true_iff] at waits
  refine ⟨ν, h, hr.unrestricted, asleep _ fun awake => awake (.lock .lock) (by simp [waits.1]),
    semaphore_ring_can_run (by decide) (by simp [common]) hr.unrestricted forked ⟨producer 0, ?_⟩⟩
  rw [hloc]
  exact fun stop => waits.2 ((finished_iff (producer 0) _).mp stop)

/-- With five pairs or more, and as many PCBs as children, the kernel can bring all children that
have work to do to sleep. From then on they stay asleep whatever happens, and nobody gets through a
wait on `s_procs_completed`. -/
theorem children_stuck_for_good (hN : 5 ≤ N) (common : ∀ s, ν.common s → s = .procsCompleted)
    {z : PcbPtr} (hb : h.Begins ν (begin N)) (runs : z ∈ h.machine.kernel.sched.run)
    (idle : h.machine.pending z = none)
    (room : 2 * N ≤ h.machine.kernel.sched.free.length) :
    ∃ es h', (aloneSystem (noted N) ν (begin N)).Run h es h' ∧
      (∃ p, ¬ Finished p (h'.loc p)) ∧
      ∀ es' h'', ((hostedSystem (noted N) ν (begin N)).restrict fun _ e =>
          e.Unsignalled (ν.sem .procsCompleted)).Run h' es' h'' →
        h''.loc = h'.loc ∧
        (∀ p, ¬ Finished p (h'.loc p) →
          ∃ r, h''.place p = .runs r ∧ r ∈ h''.machine.kernel.sched.wait) ∧
        ∀ e m, h''.machine.Step e m → ¬ e.GetsThrough (ν.sem .procsCompleted) := by
  obtain ⟨s, hs, ⟨p, hp⟩, stuck⟩ : ∃ s, (system N).Reachable s ∧
      (∃ p, ¬ Finished p (s.loc p)) ∧ Stuck s := by
    have stuck := not_deadlockFree hN
    simp only [DeadlockFree] at stuck
    push Not at stuck
    obtain ⟨s, hs, hu, stuck⟩ := stuck
    obtain ⟨o, ho⟩ : ∃ o, (system N).Reachable (s.noting o) :=
      Threads.reachable_noting _ hs
    exact ⟨s.noting o, ho, hu, stuck⟩
  have hcard : Fintype.card (Child N) ≤ h.machine.kernel.sched.free.length := by
    rw [Fintype.card_sum, Fintype.card_fin]
    omega
  have settled : ∀ p, noted N p (s.loc p) = .stop ∨ ¬ s.session.Awake p := fun p =>
    or_iff_not_imp_left.mpr fun hp => stuck p ((finished_iff p _).not.mp hp)
  obtain ⟨es, h', run, hloc, forever⟩ := hosted_stalls begin_fresh (quiet common) lets
    (returns.asks ν) hb runs idle hcard hs settled
  refine ⟨es, h', run, ⟨p, hloc ▸ hp⟩, fun es' h'' run' => ?_⟩
  obtain ⟨hloc', asleep⟩ := forever es' h'' run'.unrestricted
  have hr : ((hostedSystem (noted N) ν (begin N)).restrict fun _ e =>
      e.Unsignalled (ν.sem .procsCompleted)).Reachable h'' :=
    ((System.Reachable.init hb).run (run.weaken fun _ _ he => he.unsignalled _)).run run'
  refine ⟨hloc'.trans hloc.symm, fun q hq => ?_, fun e m hstep through => hp ?_⟩
  · obtain ⟨r, w, hr', hw⟩ := asleep q ((finished_iff q _).not.mpr (hloc ▸ hq))
    exact ⟨r, hr', (reachable_inv (hosted_machine hr.unrestricted)).queued _ r hw⟩
  · have all := all_signalled begin_fresh (quiet common) lets (signalsOnce.noted _) begin_count
      begin_unsignalled hr hstep through p
    rw [hloc'] at all
    cases p with
    | inl i => exact of_decide_eq_true (p := (s.loc (.inl i)).pc = .finished) all
    | inr j => exact of_decide_eq_true (p := (s.loc (.inr j)).pc = .finished) all

/-- Five pairs on an otherwise idle kernel get stuck. -/
theorem children_stuck_for_good_five_pairs :
    ∃ (ν : Handles Sem Lock Cond) (h : Hosted (Child 5) (Loc 5) (SharedBuffer × Record 5)),
      h.Begins ν (begin 5) ∧ ∃ es h', (aloneSystem (noted 5) ν (begin 5)).Run h es h' ∧
      (∃ p, ¬ Finished p (h'.loc p)) ∧
      ∀ es' h'', ((hostedSystem (noted 5) ν (begin 5)).restrict fun _ e =>
          e.Unsignalled (ν.sem .procsCompleted)).Run h' es' h'' →
        h''.loc = h'.loc ∧
        (∀ p, ¬ Finished p (h'.loc p) →
          ∃ r, h''.place p = .runs r ∧ r ∈ h''.machine.kernel.sched.wait) ∧
        ∀ e m, h''.machine.Step e m → ¬ e.GetsThrough (ν.sem .procsCompleted) := by
  obtain ⟨ν, h, p, q, common, hb, scene⟩ := exists_begins (begin 5) (· = .procsCompleted)
    (by decide) (by decide) (by decide)
  refine ⟨ν, h, hb, children_stuck_for_good le_rfl (by simp [common]) hb (z := p)
    (by simp [scene.run]) (scene.outside p) ?_⟩
  have := scene.length_free
  simp only [processMaxProcs] at this
  omega

end Q3

namespace Q4

variable {N : ℕ} {s : State N} {p : Child N}

/-- A child sleeps for the lock, a producer for room, or a consumer for an item. -/
theorem asleep_cases (h : (system N).Reachable s) (asleep : ¬ s.session.Awake p) :
    p ∈ s.session.mon.waiting (.lock .lock) ∨
      (∃ i, p = producer i) ∧ p ∈ s.asleep .notFull ∨
      (∃ j, p = consumer j) ∧ p ∈ s.asleep .notEmpty := by
  obtain ⟨w, hw⟩ := not_forall_not.mp asleep
  have hs := Threads.reachable_coherent begin_fresh h
  cases w with
  | sem t =>
      obtain ⟨c, hc, e⟩ := hs.sound.pending _ p hw
      obtain ⟨l, act⟩ := hs.called p c hc
      cases c with
      | semWait t => exact absurd act (ne_semWait p _ t l)
      | _ => cases e
  | lock k => exact .inl hw
  | cond c =>
      cases c with
      | notFull => exact .inr (.inl ⟨(asleep_notFull h hw).imp fun _ e => e.1, hw⟩)
      | notEmpty => exact .inr (.inr ⟨(asleep_notEmpty h hw).imp fun _ e => e.1, hw⟩)

/-- The lock is free when all children sleep or have stopped. -/
theorem free_of_stuck (h : (system N).Reachable s)
    (stuck : ∀ p, noted N p (s.loc p) ≠ .stop → ¬ s.session.Awake p) :
    s.session.mon.owner .lock = none := by
  have hs := Threads.reachable_coherent begin_fresh h
  cases ho : s.session.mon.owner .lock with
  | none => rfl
  | some q =>
      rcases (reachable_lock h).owner_awake hs.sound (fun _ => rfl) ho with awake | ⟨t, ht⟩
      · exact absurd awake (stuck q fun stop => lets s h q stop _ ho)
      · obtain ⟨l, act⟩ := hs.called q _ ht
        exact absurd act (ne_semWait q _ t l)

/-- A producer with items left has work to do. -/
theorem Producer.unfinished {l : Producer} {mine : List Char} (hk : l.Knows places mine)
    (hi : l.pDepot.index < 10) : l.action (N := N) ≠ .stop := by
  intro act
  have := hk.done (by simp [places, Producer.stop_iff.mp act])
  omega

/-- A consumer with items left has work to do. -/
theorem Consumer.unfinished {l : Consumer} {mine : List Char}
    (hk : l.Knows places mine) (hi : l.cDepot.index < 10) : l.action (N := N) ≠ .stop := by
  intro act
  have := hk.done (by simp [places, Consumer.stop_iff.mp act])
  omega

/-- A child with work to do is awake. -/
theorem exists_awake (hN : N ≤ 15) (h : (system N).Reachable s)
    (hu : ∃ p, noted N p (s.loc p) ≠ .stop) :
    ∃ p, noted N p (s.loc p) ≠ .stop ∧ s.session.Awake p := by
  by_contra hne
  push Not at hne
  have free := free_of_stuck h hne
  have unlocked : s.session.mon.waiting (.lock .lock) = [] :=
    (Threads.reachable_coherent begin_fresh h).sound.free _ free
  have sleeps (p : Child N) (hp : noted N p (s.loc p) ≠ .stop) :
      (∃ i, p = producer i) ∧ p ∈ s.asleep .notFull ∨
        (∃ j, p = consumer j) ∧ p ∈ s.asleep .notEmpty :=
    (asleep_cases h (hne p hp)).resolve_left fun hw => by simp [unlocked] at hw
  obtain ⟨hstocked, hsupply, hroom⟩ : Paced N 0 0 s.record s.asleep :=
    (reachable_wakeups h).free free
  have hle := (reachable_ring h).fits.le
  have hsize : bufferSize = 32 := rfl
  rw [hsize] at hroom
  have producers (hn : s.record.inserted.length < 10 * N) : s.asleep .notFull ≠ [] := by
    obtain ⟨i, hi⟩ := exists_producer h free hn
    have hk : (s.producerAt i).Knows places _ := reachable_knows h (producer i)
    have busy : noted N (producer i) (s.loc _) ≠ .stop :=
      Program.noted_stop.not.mpr (Producer.unfinished hk hi)
    rcases sleeps (producer i) busy with ⟨-, hm⟩ | ⟨⟨j, e⟩, -⟩
    · exact List.ne_nil_of_mem hm
    · cases e
  have consumers (hs : Stocked s.record) : s.asleep .notEmpty ≠ [] := by
    obtain ⟨j, hj, -⟩ := exists_consumer h free hs
    have hk : (s.consumerAt j).Knows places _ := reachable_knows h (consumer j)
    have busy : noted N (consumer j) (s.loc _) ≠ .stop :=
      Program.noted_stop.not.mpr (Consumer.unfinished hk hj)
    rcases sleeps (consumer j) busy with ⟨⟨i, e⟩, -⟩ | ⟨-, hm⟩
    · cases e
    · exact List.ne_nil_of_mem hm
  by_cases hs : Stocked s.record
  · have := List.length_pos_iff.mpr (consumers hs)
    exact producers (by omega) (List.length_eq_zero_iff.mp (by omega))
  · rw [Stocked] at hs
    have full : s.asleep .notFull = [] := List.length_eq_zero_iff.mp (by omega)
    by_cases hn : s.record.inserted.length < 10 * N
    · exact producers hn full
    · have empty : s.asleep .notEmpty = [] := List.length_eq_zero_iff.mp (by omega)
      obtain ⟨p, hp⟩ := hu
      rcases sleeps p hp with ⟨-, hm⟩ | ⟨-, hm⟩
      · simp [full] at hm
      · simp [empty] at hm

variable {ν : Handles Sem Lock Cond} {h : Hosted (Child N) (Loc N) (SharedBuffer × Record N)}

/-- With at most fifteen pairs, as long as a child has work to do, the kernel has a child with work
to do that can run. -/
theorem cond_ring_can_run (hN : N ≤ 15)
    (hr : (hostedSystem (noted N) ν (begin N)).Reachable h) (forked : ∀ p, h.place p ≠ .unborn)
    (hu : ∃ p, noted N p (h.loc p) ≠ .stop) :
    ∃ p r, noted N p (h.loc p) ≠ .stop ∧ h.place p = .runs r ∧
      r ∈ h.machine.kernel.sched.run :=
  hosted_runs begin_fresh quiet lets (fun _ => exists_awake hN) hr forked hu

/-- The consumer of one pair sleeps before the empty ring, and the producer has the lock. -/
theorem cond_ring_can_run_asleep :
    ∃ (ν : Handles Sem Lock Cond) (h : Hosted (Child 1) (Loc 1) (SharedBuffer × Record 1)),
      (hostedSystem (noted 1) ν (begin 1)).Reachable h ∧
      (∃ r, h.place (consumer 0) = .runs r ∧ r ∈ h.machine.kernel.sched.wait) ∧
      ∃ p r, noted 1 p (h.loc p) ≠ .stop ∧ h.place p = .runs r ∧
        r ∈ h.machine.kernel.sched.run := by
  obtain ⟨ν, h, s, common, hr, hs, hloc, -, forked, asleep⟩ := exists_hosted (π := noted 1)
    (begin_fresh : (begin 1).Fresh) returns.asks (· = .procsCompleted) (by decide) (by decide)
    (by decide) (by decide) [consumer 0, consumer 0, consumer 0, producer 0] (by decide)
  have waits : (Threads.exec (noted 1) (begin 1)
      [consumer 0, consumer 0, consumer 0, producer 0]).all fun s =>
        decide (s.session.mon.waiting (.cond .notEmpty) = [consumer 0] ∧
          (s.loc (producer 0)).pc ≠ .finished) := by decide
  rw [hs, Option.all_some, decide_eq_true_iff] at waits
  refine ⟨ν, h, hr.unrestricted, asleep _ fun awake => awake (.cond .notEmpty) (by simp [waits.1]),
    cond_ring_can_run (by decide) hr.unrestricted forked ⟨producer 0, ?_⟩⟩
  rw [hloc]
  exact fun stop => waits.2 (Producer.stop_iff.mp (Program.noted_stop.mp stop))

end Q4

namespace Q5

variable {a : InjCount} {ν : Handles Sem Empty Empty} {h : Hosted Proc (Loc a) Unit}

theorem finished_iff (p : Proc) (l : Loc a p) : program a p l = .stop ↔ Finished l := by
  cases l <;> simp [program, Finished]

/-- Twice the calls that a process has still to make, less one while it is inside a call. -/
def work (p : Proc) (l : Loc a p) (c : Option (Call Proc Sem Empty Empty)) : ℕ :=
  2 * l.remaining - c.isSome.toNat

/-- Going to sleep is also a step on the way. -/
theorem work_block {p : Proc} {l : Loc a p} {c : Call Proc Sem Empty Empty} {next : Loc a p}
    (act : program a p l = .call c next) : work p l (some c) < work p l none := by
  simp only [work, Option.isSome_some, Option.isSome_none, Bool.toNat_true, Bool.toNat_false]
  cases l with
  | finished => cases act
  | _ => simp only [Loop.remaining]; omega

theorem work_call {p : Proc} {l next : Loc a p} {c : Call Proc Sem Empty Empty}
    (act : program a p l = .call c next) (d : Option (Call Proc Sem Empty Empty)) :
    work p next none < work p l d := by
  have inside := d.isSome.toNat_le
  cases l with
  | round left c rest hleft hrest =>
      cases act
      have goesOn := Loop.remaining_goOn hleft ((List.suffix_cons c rest).trans hrest)
      simp only [work, goesOn, Option.isSome_none, Bool.toNat_false]
      simp only [Loop.remaining]
      omega
  | last =>
      cases act
      simp only [work, Loop.remaining, Option.isSome_none, Bool.toNat_false]
      omega
  | finished => cases act

/-- Every step of the program takes it nearer to its end. -/
theorem tally_work {s t : State a} {p : Proc} (hs : s.Step (program a) p t) :
    t.tally work < s.tally work := by
  have tally := hs.tally work
  have falls : work p (t.loc p) (t.session.pending p) < work p (s.loc p) (s.session.pending p) := by
    cases hs with
    | compute outside act => cases hl : s.loc p <;> rw [hl] at act <;> cases act
    | block outside act used blocked =>
        rw [outside]
        simpa [Session.perform, blocked] using work_block act
    | pass outside act used returned =>
        rw [outside]
        simpa [Session.perform, returned, outside] using work_call act none
    | wake inside awake act => simpa [Session.finish] using work_call act (s.session.pending p)
  omega

theorem tally_start (a : InjCount) :
    (start a).tally work = ∑ p, 2 * (rounds a p * (body p).length + 1) := by
  refine Finset.sum_congr rfl fun p _ => ?_
  change 2 * (Loop.enter (rounds a p) (body p) (rounds a p) le_rfl).remaining - 0 = _
  rw [Loop.remaining_enter, Nat.sub_zero]

/-- However the kernel schedules them, the five processes get on a number of times that their counts
bound, and as long as one has not finished the kernel has such a process to run. -/
theorem atmosphere_terminates (ha : a.Valid) (common : ∀ s, ν.common s → s = .procsCompleted)
    (hb : h.Begins ν (start a)) {es : List (HostedEvent Proc)} {h' : Hosted Proc (Loc a) Unit}
    (run : (hostedSystem (program a) ν (start a)).Run h es h') :
    es.countP HostedEvent.works ≤ ∑ p, 2 * (rounds a p * (body p).length + 1) ∧
    ((∀ p, h'.place p ≠ .unborn) → (∃ p, ¬ Finished (h'.loc p)) →
      ∃ p r, ¬ Finished (h'.loc p) ∧ h'.place p = .runs r ∧ r ∈ h'.machine.kernel.sched.run) := by
  refine ⟨?_, fun forked hu => ?_⟩
  · rw [← tally_start]
    exact hosted_bounded start_fresh (quiet common) lets _ (fun _ _ _ _ => tally_work) hb run
  · simp only [← finished_iff] at hu ⊢
    refine hosted_runs start_fresh (quiet common) lets (fun s hs hu => ?_)
      ((System.Reachable.init hb).run run) forked hu
    simp only [Ne, finished_iff] at hu ⊢
    exact exists_awake ha hs hu

/-- One molecule of nitrogen and six of water take eighty steps at most. -/
theorem atmosphere_terminates_eighty :
    ∃ (ν : Handles Sem Empty Empty) (h : Hosted Proc (Loc ⟨1, 6⟩) Unit),
      h.Begins ν (start ⟨1, 6⟩) ∧
      ∀ es h', (hostedSystem (program ⟨1, 6⟩) ν (start ⟨1, 6⟩)).Run h es h' →
        es.countP HostedEvent.works ≤ 80 ∧
        ((∀ p, h'.place p ≠ .unborn) → (∃ p, ¬ Finished (h'.loc p)) →
          ∃ p r, ¬ Finished (h'.loc p) ∧ h'.place p = .runs r ∧
            r ∈ h'.machine.kernel.sched.run) := by
  obtain ⟨ν, h, p, q, common, hb, -⟩ := exists_begins (start ⟨1, 6⟩) (· = .procsCompleted)
    (by decide) (by decide) (by decide)
  exact ⟨ν, h, hb, fun es h' run => atmosphere_terminates ⟨by decide, by decide, by decide⟩
    (by simp [common]) hb run⟩

end Q5

end DlxOs.Apps
