import DlxOs.Apps.Liveness
import DlxOs.Apps.Rounds

/-!
# The ring buffer with semaphores comes to its end

Producers wait and insert, and only a consumer that finds another item than its
own goes round without result. Once in five pairs it can also wait for a full
slot with the lock; with four pairs the others then get something done before
all of them sleep.
-/

namespace DlxOs.Apps.Q3

open Monitors Transition

/-- What is left of a producer's round. -/
def ProducerPc.left : ProducerPc → ℕ
  | .waitEmptySlot => 6
  | .lockAcquire => 5
  | .store => 4
  | .lockRelease => 3
  | .signalFullSlot => 2
  | .signalCompleted => 1
  | .finished => 0

/-- What is left of a consumer's round, in which it may try again. -/
def ConsumerPc.left : ConsumerPc → ℕ
  | .waitFullSlot => 5
  | .remove => 4
  | .lockRelease => 3
  | .signalEmptySlot => 2
  | .signalCompleted => 1
  | .finished => 0
  | _ => 6

/-- The places of a round before the item is found. -/
def ConsumerPc.retries : ConsumerPc → Bool
  | .lockAcquire => true
  | .test => true
  | .lockReleaseElse => true
  | _ => false

/-- How far such a round is from giving the lock away. -/
def ConsumerPc.rank : ConsumerPc → ℕ
  | .lockAcquire => 2
  | .test => 1
  | _ => 0

variable {N : ℕ} {s : State N}

abbrev level : (p : Child N) → Loc N p → ℕ := childLevel ProducerPc.left ConsumerPc.left

def retries : (p : Child N) → Loc N p → Bool
  | .inl _, _ => false
  | .inr _, l => l.pc.retries

def rank : (p : Child N) → Loc N p → ℕ
  | .inl _, _ => 0
  | .inr _, l => l.pc.rank

/-- Every action of a child brings its level down, or belongs to a round without result. -/
theorem goesOn (p : Child N) (l : Loc N p) :
    (noted N p l).GoesOn (retries p) (level p) (rank p) l := by
  cases p with
  | inl i =>
      obtain ⟨pc, d, c⟩ := l
      cases pc with
      | store => exact fun x => Nat.lt_succ_self _
      | signalFullSlot =>
          exact Apps.Producer.loop_level_lt (Nat.lt_succ_self _) (by simp [ProducerPc.left])
      | finished => trivial
      | _ => exact Nat.lt_succ_self _
  | inr j =>
      obtain ⟨pc, d, c, e⟩ := l
      cases pc with
      | lockAcquire => exact ⟨le_rfl, by simp, fun _ => Nat.lt_succ_self _⟩
      | test =>
          intro x
          change level (consumer j) ⟨ite _ _ _, d, c, e⟩ ≤ _ ∧ x = x ∧
            ConsumerPc.rank (ite _ _ _) < 1
          split_ifs
          · exact ⟨Nat.le_succ _, rfl, by decide⟩
          · exact ⟨le_rfl, rfl, by decide⟩
      | lockReleaseElse =>
          exact ⟨Apps.Consumer.loop_level_le (by decide) le_rfl, by simp,
            fun h => absurd rfl (h .lock)⟩
      | remove => exact fun x => Nat.lt_succ_self _
      | signalEmptySlot =>
          exact Apps.Consumer.loop_level_lt (Nat.lt_succ_self _) (by simp [ConsumerPc.left])
      | finished => trivial
      | _ => exact Nat.lt_succ_self _

theorem ConsumerPc.rank_lt (pc : ConsumerPc) : pc.rank < 3 := by
  cases pc <;> decide

theorem retrying : (noted N).Retrying (begin N) .lock holds retries level rank 3 where
  fresh := begin_fresh
  only _ := rfl
  disciplined := disciplined
  bound _ := rfl
  outside := begin_outside
  stops := returns.stop_outside
  goesOn := goesOn
  rank_lt
    | .inl _, _ => Nat.succ_pos 2
    | .inr _, l => l.pc.rank_lt

/-! ### A consumer that sleeps with the lock -/

/-- Only the head of a round lies outside the lock. -/
theorem Consumer.retry_outside {l : Consumer} (hret : l.pc.retries = true)
    (out : ¬ l.pc.inside = true) : ∃ next, action (N := N) l = .call (.acquire .lock) next := by
  obtain ⟨pc, d, c, e⟩ := l
  cases pc with
  | lockAcquire => exact ⟨_, rfl⟩
  | test => exact absurd rfl out
  | lockReleaseElse => exact absurd rfl out
  | _ => cases hret

/-- While the owner of the lock sleeps, whoever goes round without result comes to sleep at the
lock. -/
theorem step_jammed (hr : (system N).Reachable s) {p q : Child N} {t : State N}
    (ho : s.session.mon.owner .lock = some q) (asleep : ¬ s.session.Awake q)
    (hs : s.Step (noted N) p t) (hret : retries p (s.loc p) = true) :
    s.session.pending p = none ∧ t.session.pending p = some (.acquire .lock) ∧
      t.session.mon = s.session.mon.enqueue (.lock .lock) p := by
  have coherent := retrying.coherent hr
  have awake := hs.awake coherent
  have hne : q ≠ p := fun e => asleep (e ▸ awake)
  have out : ¬ s.Inside .lock holds p := fun h =>
    hne (Option.some.inj (ho.symm.trans ((reachable_lock hr p).mpr h)))
  obtain ⟨next, act⟩ : ∃ next, noted N p (s.loc p) = .call (.acquire .lock) next := by
    cases p with
    | inl i => cases hret
    | inr j =>
        have outside : ¬ holds (consumer j) (s.loc (consumer j)) := fun hh => out (by
          rw [Threads.Inside]
          cases s.session.pending (consumer j) with
          | none => exact hh
          | some c => exact (em _).imp (⟨·, awake⟩) (⟨·, hh⟩))
        exact (Consumer.retry_outside hret outside).imp fun _ => Program.noted_call.mpr
  have outside : s.session.pending p = none := by
    cases hp : s.session.pending p with
    | none => rfl
    | some c =>
        obtain ⟨l, act'⟩ := coherent.called p c hp
        obtain ⟨rfl, -⟩ := Action.call.inj (act.symm.trans act')
        refine absurd ?_ out
        rw [Threads.Inside, hp]
        exact .inl ⟨rfl, awake⟩
  have hcall : s.session.mon.call p (.acquire .lock) =
      (.blocked, s.session.mon.enqueue (.lock .lock) p) := by
    simp [Monitor.call, ho, hne]
  cases hs with
  | compute _ act' => cases act.symm.trans act'
  | block _ act' =>
      obtain ⟨rfl, -⟩ := Action.call.inj (act.symm.trans act')
      exact ⟨outside, by simp [Session.perform, hcall], by simp [Session.perform, hcall]⟩
  | pass _ act' _ returned =>
      obtain ⟨rfl, -⟩ := Action.call.inj (act.symm.trans act')
      rw [hcall] at returned
      cases returned
  | wake inside => cases outside.symm.trans inside

section Fair

variable {x : (system N).Execution} {w : ℕ} {x₀ : SharedBuffer × Record N} {i j : Fin N}

/-- With four pairs something gets done although the owner of the lock sleeps. -/
theorem jammed_gets_on (hN : N ≤ 4) (fair : x.Fair (Threads.Able (noted N)) Eq) (w : ℕ)
    (q : Child N) :
    x.LeadsTo
      (fun s => s.toDo level retries = w ∧ s.session.mon.owner .lock = some q ∧
        ¬ s.session.Awake q)
      (fun s => s.toDo level retries < w) := by
  suffices progress : System.Execution.Progress (system N) (Threads.Able (noted N)) Eq
      (fun s => s.toDo level retries = w ∧ s.session.mon.owner .lock = some q ∧
        ¬ s.session.Awake q)
      (fun s => s.toDo level retries < w)
      (fun s => s.tally fun _ _ c => c.isNone.toNat)
      (Threads.Able (noted N)) from fair.leadsTo progress
  constructor
  case helper =>
    intro s hr ⟨_, ho, asleep⟩
    by_contra none
    have stuck : Stuck s := fun p hp awake =>
      none ⟨p, (finished_iff p _).not.mpr hp, awake⟩
    obtain ⟨v, hv⟩ := not_forall_not.mp asleep
    obtain ⟨c, hc, -⟩ := (retrying.coherent hr).sound.pending v q hv
    have := stuck.many hr ⟨q, unfinished hr hc⟩
    omega
  case able => exact fun _ _ _ _ able => able
  case step =>
    intro s p t hr ⟨hw, ho, asleep⟩ hs
    obtain ⟨hle, hlt⟩ := retrying.toDo_step hs
    rw [hw] at hle hlt
    rcases hle.lt_or_eq with less | same
    · exact .inl less
    have hret : retries p (s.loc p) = true := by
      by_contra hn
      exact (hlt (Bool.eq_false_iff.mpr hn)).ne same
    obtain ⟨outside, inside, mon⟩ := step_jammed hr ho asleep hs hret
    refine .inr ⟨⟨same, by rw [mon]; exact ho, fun awake => ?_⟩, .inl ?_⟩
    · obtain ⟨v, hv⟩ := not_forall_not.mp asleep
      refine awake v ?_
      rw [mon]
      by_cases e : v = .lock .lock
      · subst e
        simp [hv]
      · rwa [Monitor.enqueue_of_ne _ _ _ _ e]
    · have sum := hs.tally fun _ _ c => c.isNone.toNat
      simp only [outside, inside] at sum
      simp at sum
      omega

theorem ConsumerPc.seeks_of_retries {pc : ConsumerPc} (h : pc.retries = true) :
    places.seeks pc = true := by
  cases pc <;> first | rfl | cases h

theorem ConsumerPc.taken_of_retries {pc : ConsumerPc} (h : pc.retries = true) :
    places.taken pc = false := by
  cases pc <;> first | rfl | cases h

/-- While its next digit is at the head of the ring, a consumer gets on. -/
theorem Consumer.gets_on (fair : x.Fair (Threads.Able (noted N)) Eq) {l : Consumer}
    (hi : digits[l.cDepot.index]? = some x₀.1.head) (hr : l.pc.retries = true)
    (he : x₀.1.head = l.expectedItem) :
    x.LeadsTo (Threads.On .lock level retries w x₀ (consumer j) l)
      (fun s => s.toDo level retries < w) := by
  have test : ∀ d c, x.LeadsTo
      (Threads.On .lock level retries w x₀ (consumer j) ⟨.test, d, c, x₀.1.head⟩)
      (fun s => s.toDo level retries < w) := fun d c => by
    apply (retrying.computes fair rfl).or_end
    simp only [if_pos]
    exact retrying.works_at fair (fun act => by cases act) rfl
  have acquire : ∀ d c, x.LeadsTo
      (Threads.On .lock level retries w x₀ (consumer j) ⟨.lockAcquire, d, c, x₀.1.head⟩)
      (fun s => s.toDo level retries < w) := fun d c =>
    (retrying.acquires fair rfl).or_end (Program.Retrying.on_at (test d c))
  obtain ⟨pc, d, c, e⟩ := l
  obtain rfl : x₀.1.head = e := he
  cases pc with
  | lockAcquire => exact acquire d c
  | test => exact test d c
  | lockReleaseElse =>
      apply (retrying.releases fair rfl).or_end
      have expected := ditoaChar_eq (index_lt hi) x₀.1.head
      rw [hi] at expected
      rw [head, Consumer.loop_eq (index_lt hi), ← Option.some.inj expected]
      exact Program.Retrying.on_at (acquire d c)
  | _ => cases hr

/-- A consumer waits for a full slot with the lock. -/
theorem Consumer.owner_of_waits (hr : (system N).Reachable s)
    (hpc : (s.consumerAt j).pc = .waitFullSlot) (asleep : ¬ s.session.Awake (consumer j)) :
    s.session.mon.owner .lock = some (consumer j) := by
  obtain ⟨v, hv⟩ := not_forall_not.mp asleep
  obtain ⟨c, hc, -⟩ := (retrying.coherent hr).sound.pending v _ hv
  obtain ⟨next, act⟩ := (retrying.coherent hr).called _ c hc
  have act : action (s.consumerAt j) = .call c next := Program.noted_call.mp act
  simp only [action, hpc] at act
  obtain ⟨rfl, -⟩ := Action.call.inj act
  refine (reachable_lock hr _).mpr ?_
  rw [Threads.Inside, hc]
  refine .inr ⟨by simp [Monitor.granted], ?_⟩
  change (s.consumerAt j).pc.inside = true
  rw [hpc]
  rfl

/-- When nobody gets on, a producer that is not queued up for the lock is through or waits for an
empty slot. -/
theorem Producer.through_or_waits (hr : (system N).Reachable s)
    (trying : ∀ p, Threads.Able (noted N) p s → retries p (s.loc p) = true)
    (queued : producer i ∉ s.session.mon.waiting (.lock .lock)) :
    (s.producerAt i).pc = .finished ∨ (s.producerAt i).pc = .waitEmptySlot ∧
      producer i ∈ s.session.mon.waiting (.sem .emptyslots) := by
  refine or_iff_not_imp_left.mpr fun hf => ?_
  have asleep : ¬ s.session.Awake (producer i) := fun awake => by
    cases trying (producer i) ⟨(finished_iff _ _).not.mpr hf, awake⟩
  rcases Producer.asleep_cases hr asleep with h | ⟨-, hm⟩
  · exact h
  · exact absurd hm queued

/-- When nobody gets on and whoever has the lock is awake, a consumer is through or tries again. -/
theorem Consumer.through_or_tries (hr : (system N).Reachable s)
    (trying : ∀ p, Threads.Able (noted N) p s → retries p (s.loc p) = true)
    (owner : ∀ q, s.session.mon.owner .lock = some q → s.session.Awake q) :
    (s.consumerAt j).pc = .finished ∨ (s.consumerAt j).pc.retries = true := by
  refine or_iff_not_imp_left.mpr fun hf => ?_
  by_cases awake : s.session.Awake (consumer j)
  · exact trying (consumer j) ⟨(finished_iff _ _).not.mpr hf, awake⟩
  rcases Consumer.asleep_cases hr awake with ⟨hpc, -⟩ | ⟨hpc, -⟩
  · rw [hpc]
    rfl
  · exact absurd (owner _ (Consumer.owner_of_waits hr hpc awake)) awake

/-- When nobody is in the middle of a round and a child has work to do, the ring holds an item. -/
theorem stocked_of_trying (hr : (system N).Reachable s) (hu : ∃ p, ¬ Finished p (s.loc p))
    (hp : ∀ i, (s.producerAt i).pc = .finished ∨ (s.producerAt i).pc = .waitEmptySlot ∧
      producer i ∈ s.session.mon.waiting (.sem .emptyslots))
    (hc : ∀ j, (s.consumerAt j).pc = .finished ∨ (s.consumerAt j).pc.retries = true)
    (asleep : ∀ p, s.session.pending p = some (.semWait .emptyslots) → ¬ s.session.Awake p) :
    Stocked s.record := by
  have knows := reachable_knows hr
  have stored (i : Fin N) : (places.stored (s.producerAt i).pc) = false := by
    rcases hp i with hpc | ⟨hpc, -⟩ <;> rw [hpc] <;> rfl
  have taken (j : Fin N) : (places.taken (s.consumerAt j).pc) = false := by
    rcases hc j with hpc | hret
    · rw [hpc]
      rfl
    · exact ConsumerPc.taken_of_retries hret
  by_cases waits : s.session.mon.waiting (.sem .emptyslots) = []
  · have done (i : Fin N) : (s.producerAt i).pc = .finished :=
      (hp i).resolve_right fun h => by simp [waits] at h
    refine places.exists_left knows stored taken (fun i => ?_) ?_
    · exact Producer.Knows.done (knows (producer i)) (by simp [places, done i])
    · obtain ⟨p, hp⟩ := hu
      cases p with
      | inl i => exact absurd (done i) hp
      | inr j =>
          have hk : (s.consumerAt j).Knows places _ := knows (consumer j)
          exact ⟨j, index_lt (hk.seeks (ConsumerPc.seeks_of_retries ((hc j).resolve_left hp)))⟩
  · have balance := sum_reserved_eq hr asleep waits
    obtain ⟨hi, hr⟩ := places.sum_knows knows
    have made (i : Fin N) : places.made (s.producerAt i) =
        (s.producerAt i).pDepot.index + (s.producerAt i).pc.reserved.toNat := by
      rcases hp i with hpc | ⟨hpc, -⟩ <;> rw [Places.made, hpc] <;> rfl
    have gone (j : Fin N) : places.gone (s.consumerAt j) = (s.consumerAt j).cDepot.index := by
      rw [Places.gone, taken]
      rfl
    rw [Finset.sum_congr rfl fun i _ => made i, balance] at hi
    rw [Finset.sum_congr rfl fun j _ => gone j] at hr
    have size : bufferSize = 32 := rfl
    rw [Stocked, ← hr, ← hi]
    omega

/-- With at most four pairs, in a fair execution all children come to their end. -/
theorem terminates (hN : N ≤ 4) (fair : x.Fair (Threads.Able (noted N)) Eq) :
    ∃ n, ∀ p, noted N p ((x.state n).loc p) = .stop := by
  refine retrying.terminates fair fun n busy able => ?_
  have hr := x.reachable n
  by_cases jammed : ∃ q, (x.state n).session.mon.owner .lock = some q ∧
      ¬ (x.state n).session.Awake q
  · obtain ⟨q, hq⟩ := jammed
    exact jammed_gets_on hN fair _ q n ⟨rfl, hq⟩
  push Not at jammed
  have steady : (x.state n).Steady .lock level retries _ (x.state n).mem := ⟨rfl, rfl, jammed⟩
  by_cases queued : ∃ i, producer i ∈ (x.state n).session.mon.waiting (.lock .lock)
  · obtain ⟨i, hi⟩ := queued
    exact retrying.works_queued fair _ _ (producer i) n ⟨steady, hi, rfl⟩
  have producers (i : Fin N) := Producer.through_or_waits hr able fun hm => queued ⟨i, hm⟩
  have consumers (j : Fin N) := Consumer.through_or_tries (j := j) hr able jammed
  have stocked := stocked_of_trying hr (busy.imp fun p => (finished_iff p _).not.mp) producers
    consumers fun p hp awake => ?_
  · obtain ⟨j, hret, hj⟩ := places.exists_trying (reachable_knows hr) (reachable_fits hr) stocked
      fun j => (consumers j).imp (fun hf => congrArg places.done hf)
        fun hret => ⟨ConsumerPc.taken_of_retries hret, hret⟩
    have hk : ((x.state n).consumerAt j).Knows places _ := reachable_knows hr (consumer j)
    have expected := hk.seeks (ConsumerPc.seeks_of_retries hret)
    exact Consumer.gets_on fair hj hret (Option.some.inj (hj.symm.trans expected)) n ⟨steady, rfl⟩
  · obtain ⟨next, act⟩ := (retrying.coherent hr).called p _ hp
    have hret := able p ⟨by simp [act], awake⟩
    exact (retrying.call_retry hret act).2.1.1 _ rfl

end Fair

end DlxOs.Apps.Q3
