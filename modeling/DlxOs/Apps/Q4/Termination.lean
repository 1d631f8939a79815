import DlxOs.Apps.Liveness
import DlxOs.Apps.Rounds

/-!
# The ring buffer with condition variables comes to its end

Producers wait at most once for each item. A consumer that finds another item
than its own goes round without result, and may wait for an item in such a
round. With few enough pairs no consumer waits while the others are through
with what they can do, so the lock comes to the one that expects the head.
-/

namespace DlxOs.Apps.Q4

open Monitors Transition

/-- What is left of a producer's round. -/
def ProducerPc.left : ProducerPc → ℕ
  | .lockAcquire => 7
  | .test => 6
  | .waitNotFull => 5
  | .store => 4
  | .signalNotEmpty => 3
  | .lockRelease => 2
  | .signalCompleted => 1
  | .finished => 0

/-- What is left of a consumer's round. After a removal the index is a step ahead. -/
def Consumer.left (l : Consumer) : ℕ :=
  match l.pc with
  | .remove => 4
  | .signalNotFull => 3
  | .lockRelease => if l.cDepot.index < 10 then 5 else 2
  | .signalCompleted => 1
  | .finished => 0
  | _ => 5

/-- The places of a round before the item is removed, and those after it if items are left. -/
def Consumer.triesAgain (l : Consumer) : Bool :=
  match l.pc with
  | .lockAcquire => true
  | .test => true
  | .waitNotEmpty => true
  | .look => true
  | .lockRelease => l.cDepot.index < 10
  | _ => false

/-- How far such a round is from giving the lock away. -/
def ConsumerPc.rank : ConsumerPc → ℕ
  | .lockAcquire => 4
  | .test => 3
  | .waitNotEmpty => 2
  | .look => 1
  | _ => 0

variable {N : ℕ} {s : State N}

def level : (p : Child N) → Loc N p → ℕ
  | .inl _, l => Apps.Producer.level ProducerPc.left l
  | .inr _, l => 8 * (10 - l.cDepot.index) + Consumer.left l

def retries : (p : Child N) → Loc N p → Bool
  | .inl _, _ => false
  | .inr _, l => Consumer.triesAgain l

def rank : (p : Child N) → Loc N p → ℕ
  | .inl _, _ => 0
  | .inr _, l => l.pc.rank

/-- Every action of a child brings its level down, or belongs to a round without result. -/
theorem goesOn (p : Child N) (l : Loc N p) :
    (noted N p l).GoesOn (retries p) (level p) (rank p) l := by
  cases p with
  | inl i =>
      obtain ⟨pc, d, c⟩ := l
      cases pc with
      | test =>
          intro x
          change level (producer i) ⟨ite _ _ _, d, c⟩ < _
          split_ifs
          · exact Nat.lt_succ_self _
          · exact Nat.lt_succ_of_lt (Nat.lt_succ_self _)
      | store => exact fun x => Nat.lt_succ_self _
      | lockRelease =>
          exact Apps.Producer.loop_level_lt (Nat.lt_succ_self _) (by simp [ProducerPc.left])
      | finished => trivial
      | _ => exact Nat.lt_succ_self _
  | inr j =>
      obtain ⟨pc, d, c, e⟩ := l
      cases pc with
      | lockAcquire => exact ⟨le_rfl, by simp, fun _ => Nat.lt_succ_self _⟩
      | test =>
          intro x
          change level (consumer j) ⟨ite _ _ _, d, c, e⟩ ≤ _ ∧ x = x ∧
            ConsumerPc.rank (ite _ _ _) < 3
          split_ifs
          · exact ⟨le_rfl, rfl, by decide⟩
          · exact ⟨le_rfl, rfl, by decide⟩
      | waitNotEmpty => exact ⟨le_rfl, by simp, fun _ => Nat.lt_succ_self _⟩
      | look =>
          intro x
          change level (consumer j) ⟨ite _ _ _, d, c, e⟩ ≤ level (consumer j) ⟨.look, d, c, e⟩ ∧
            x = x ∧ ConsumerPc.rank (ite _ _ _) < 1
          split_ifs
          · refine ⟨?_, rfl, by decide⟩
            simp only [level, Consumer.left]
            split_ifs <;> omega
          · exact ⟨Nat.le_succ _, rfl, by decide⟩
      | remove => exact fun x => Nat.lt_succ_self _
      | signalNotFull =>
          change 8 * (10 - (d.index + 1)) + (if d.index + 1 < 10 then 5 else 2) <
            8 * (10 - d.index) + 3
          split_ifs <;> omega
      | lockRelease =>
          by_cases hi : d.index < 10
          · have again : level (consumer j) (Consumer.head ⟨.lockRelease, d, c, e⟩) =
                level (consumer j) ⟨.lockRelease, d, c, e⟩ := by
              rw [Consumer.head, Consumer.loop_eq hi]
              simp [level, Consumer.left, hi]
            simp only [noted, Program.noted, program, Consumer.action, Action.GoesOn, retries,
              Consumer.triesAgain, hi, decide_true]
            exact ⟨again.le, by simp, fun h => absurd rfl (h .lock)⟩
          · have through : level (consumer j) (Consumer.head ⟨.lockRelease, d, c, e⟩) <
                level (consumer j) ⟨.lockRelease, d, c, e⟩ := by
              rw [Consumer.head, Consumer.loop, if_neg hi]
              simp [level, Consumer.left, hi]
            simp only [noted, Program.noted, program, Consumer.action, Action.GoesOn, retries,
              Consumer.triesAgain, hi, decide_false]
            exact through
      | signalCompleted => exact Nat.lt_succ_self _
      | finished => trivial

theorem ConsumerPc.rank_lt (pc : ConsumerPc) : pc.rank < 5 := by
  cases pc <;> decide

theorem retrying : (noted N).Retrying (begin N) .lock holds retries level rank 5 where
  fresh := begin_fresh
  only _ := rfl
  disciplined := disciplined
  bound _ := rfl
  outside := begin_outside
  stops := returns.stop_outside
  goesOn := goesOn
  rank_lt
    | .inl _, _ => Nat.succ_pos 4
    | .inr _, l => l.pc.rank_lt

/-! ### Who sleeps -/

/-- Who sleeps on `not_empty` waits there in a round that may be tried again. -/
theorem Consumer.asleep_waits (hr : (system N).Reachable s) {j : Fin N}
    (hm : consumer j ∈ s.asleep .notEmpty) : (s.consumerAt j).pc = .waitNotEmpty := by
  obtain ⟨c, hc, e⟩ := (retrying.coherent hr).sound.pending _ _ hm
  obtain ⟨next, act⟩ := (retrying.coherent hr).called _ c hc
  obtain rfl : c = .wait .notEmpty := by
    cases c <;> simp [Monitor.point] at e ⊢
    exact e
  exact (wait_call (Program.noted_call.mp act)).2

/-- When whoever has the lock goes round without result, no signal is owed. -/
theorem paced (hr : (system N).Reachable s)
    (ho : ∀ p, s.session.mon.owner .lock = some p → retries p (s.loc p) = true) :
    Paced N 0 0 s.record s.asleep := by
  have outline := reachable_wakeups hr
  cases howner : s.session.mon.owner .lock with
  | none => exact outline.free howner
  | some p =>
      have hat := outline.owner p howner
      have pre : (wakeups N).pre p (s.loc p) s.mem s.asleep ↔ Paced N 0 0 s.record s.asleep := by
        have hret := ho p howner
        cases p with
        | inl i => cases hret
        | inr j =>
            have owes : (s.consumerAt j).owes = 0 := by
              rw [Consumer.owes, if_neg]
              intro hpc
              rw [retries, Consumer.triesAgain, hpc] at hret
              cases hret
            change Paced N 0 (s.consumerAt j).owes _ _ ↔ _
            rw [owes]
      rw [Outline.At] at hat
      split at hat
      · exact hat
      · exact hat
      · exact hat
      · exact pre.mp hat

/-! ### When all others try again -/

theorem Consumer.taken_of_tries {l : Consumer} (h : l.triesAgain = true) :
    places.taken l.pc = false := by
  obtain ⟨pc, d, c, e⟩ := l
  cases pc <;> first | rfl | cases h

theorem Consumer.seeks_of_tries {l : Consumer} (h : l.triesAgain = true)
    (hpc : l.pc ≠ .lockRelease) : places.seeks l.pc = true := by
  obtain ⟨pc, d, c, e⟩ := l
  cases pc <;> first | rfl | cases h | exact absurd rfl hpc

/-- Who tries again has items left. -/
theorem Consumer.index_lt_of_tries {l : Consumer} {mine : List Char} (hk : l.Knows places mine)
    (h : l.triesAgain = true) : l.cDepot.index < 10 := by
  by_cases hpc : l.pc = .lockRelease
  · rw [triesAgain, hpc] at h
    exact of_decide_eq_true h
  · exact index_lt (hk.seeks (seeks_of_tries h hpc))

section Trying

variable (hr : (system N).Reachable s)
  (trying : ∀ p, Threads.Able (noted N) p s → retries p (s.loc p) = true)
  (queued : ∀ q ∈ s.session.mon.waiting (.lock .lock), retries q (s.loc q) = true)
include hr trying queued

/-- When nobody gets on, a producer is through or waits for room. -/
theorem Producer.through_or_waits (i : Fin N) : (s.producerAt i).pc = .finished ∨
    (s.producerAt i).pc = .waitNotFull ∧ producer i ∈ s.asleep .notFull := by
  refine or_iff_not_imp_left.mpr fun hf => ?_
  have busy : noted N (producer i) (s.loc (producer i)) ≠ .stop :=
    Program.noted_stop.not.mpr (Producer.stop_iff.not.mpr hf)
  have asleep : ¬ s.session.Awake (producer i) := fun awake => by
    cases trying (producer i) ⟨busy, awake⟩
  rcases asleep_cases hr asleep with hm | ⟨-, hm⟩ | ⟨⟨j, e⟩, -⟩
  · cases queued _ hm
  · obtain ⟨i', e, hpc⟩ := asleep_notFull hr hm
    obtain rfl := Sum.inl.inj e
    exact ⟨hpc, hm⟩
  · cases e

/-- When nobody gets on, a consumer is through or tries again. -/
theorem Consumer.through_or_tries (j : Fin N) :
    (s.consumerAt j).pc = .finished ∨ (s.consumerAt j).triesAgain = true := by
  refine or_iff_not_imp_left.mpr fun hf => ?_
  have busy : noted N (consumer j) (s.loc (consumer j)) ≠ .stop :=
    Program.noted_stop.not.mpr (Consumer.stop_iff.not.mpr hf)
  by_cases awake : s.session.Awake (consumer j)
  · exact trying (consumer j) ⟨busy, awake⟩
  rcases asleep_cases hr awake with hm | ⟨⟨i, e⟩, -⟩ | ⟨-, hm⟩
  · exact queued _ hm
  · cases e
  · rw [Consumer.triesAgain, Consumer.asleep_waits hr hm]

end Trying

/-- When all producers are through or wait for room, the ring holds an item and no consumer waits
for one. -/
theorem stocked_of_trying (hN : N ≤ 15) (hr : (system N).Reachable s)
    (hp : Paced N 0 0 s.record s.asleep)
    (producers : ∀ i, (s.producerAt i).pc = .finished ∨
      (s.producerAt i).pc = .waitNotFull ∧ producer i ∈ s.asleep .notFull)
    (consumers : ∀ j, (s.consumerAt j).pc = .finished ∨ (s.consumerAt j).triesAgain = true)
    (busy : ∃ p, noted N p (s.loc p) ≠ .stop) : Stocked s.record ∧ s.asleep .notEmpty = [] := by
  have knows := reachable_knows hr
  have stored (i : Fin N) : places.stored (s.producerAt i).pc = false := by
    rcases producers i with hpc | ⟨hpc, -⟩ <;> rw [hpc] <;> rfl
  have taken (j : Fin N) : places.taken (s.consumerAt j).pc = false := by
    rcases consumers j with hpc | hret
    · rw [hpc]
      rfl
    · exact Consumer.taken_of_tries hret
  obtain ⟨hstocked, hsupply, hroom⟩ := hp
  have hle := (reachable_ring hr).fits.le
  have size : bufferSize = 32 := rfl
  by_cases waits : s.asleep .notFull = []
  · have done (i : Fin N) : (s.producerAt i).pc = .finished :=
      (producers i).resolve_right fun h => by simp [waits] at h
    have index (i : Fin N) : (s.producerAt i).pDepot.index = 10 :=
      Producer.Knows.done (knows (producer i)) (by simp [places, done i])
    constructor
    · refine places.exists_left knows stored taken index ?_
      obtain ⟨p, hp⟩ := busy
      cases p with
      | inl i => exact absurd (Program.noted_stop.mpr (Producer.stop_iff.mpr (done i))) hp
      | inr j =>
          have hk : (s.consumerAt j).Knows places _ := knows (consumer j)
          have unfinished : (s.consumerAt j).pc ≠ .finished := fun hf =>
            hp (Program.noted_stop.mpr (Consumer.stop_iff.mpr hf))
          exact ⟨j, Consumer.index_lt_of_tries hk ((consumers j).resolve_left unfinished)⟩
    · have made : ∑ i, places.made (s.producerAt i) = ∑ i : Fin N, 10 :=
        Finset.sum_congr rfl fun i _ => by rw [Places.made, stored, index]; rfl
      have all : s.record.inserted.length = 10 * N := by
        rw [← (places.sum_knows knows).1]
        exact made.trans (by simp [mul_comm])
      exact List.length_eq_zero_iff.mp (by omega)
  · have := List.length_pos_iff.mpr waits
    rw [Stocked]
    exact ⟨by omega, List.length_eq_zero_iff.mp (by omega)⟩

/-- A consumer at its wait that does not sleep while the ring holds an item has been woken. -/
theorem woken (hr : (system N).Reachable s) (stocked : Stocked s.record)
    (empty : s.asleep .notEmpty = []) {j : Fin N} (hpc : (s.consumerAt j).pc = .waitNotEmpty) :
    s.session.pending (consumer j) = some (.wait .notEmpty) ∧ s.session.Awake (consumer j) := by
  have coherent := retrying.coherent hr
  have inside : s.session.pending (consumer j) = some (.wait .notEmpty) := by
    cases hp : s.session.pending (consumer j) with
    | none =>
        have hh : holds (consumer j) (s.loc (consumer j)) := by
          change (s.consumerAt j).pc.inside = true
          rw [hpc]
          rfl
        have hrel : Consumer.Relies (s.consumerAt j) s.mem := (relies hr hp hh).2
        rw [Consumer.Relies, hpc] at hrel
        exact absurd stocked hrel
    | some c =>
        obtain ⟨next, act⟩ := coherent.called _ c hp
        have act : (s.consumerAt j).action = .call c next := Program.noted_call.mp act
        simp only [Consumer.action, hpc] at act
        rw [← (Action.call.inj act).1]
  refine ⟨inside, fun v hv => ?_⟩
  obtain ⟨c, hc, e⟩ := coherent.sound.pending v _ hv
  obtain rfl := Option.some.inj (inside.symm.trans hc)
  obtain rfl := Option.some.inj e
  rw [Threads.asleep, Monitor.asleep] at empty
  rw [empty] at hv
  cases hv

section Fair

variable {x : (system N).Execution} {w : ℕ} {x₀ : SharedBuffer × Record N} {i j : Fin N}

/-- A consumer that looks at its next digit gets on. -/
theorem Consumer.look_gets_on (fair : x.Fair (Threads.Able (noted N)) Eq) (d : Depot) (c : Char) :
    x.LeadsTo (Threads.On .lock level retries w x₀ (consumer j) ⟨.look, d, c, x₀.1.head⟩)
      (fun s => s.toDo level retries < w) := by
  apply (retrying.computes fair rfl).or_end
  simp only [ne_eq, not_true_eq_false, if_false]
  exact retrying.works_at fair (fun act => by cases act) rfl

/-- A consumer that has been woken while its next digit is at the head gets on. -/
theorem Consumer.woken_gets_on (fair : x.Fair (Threads.Able (noted N)) Eq) (d : Depot) (c : Char) :
    x.LeadsTo (fun s => s.At .lock level retries w x₀ (consumer j)
        ⟨.waitNotEmpty, d, c, x₀.1.head⟩ (some (.wait .notEmpty)) ∧ s.session.Awake (consumer j))
      (fun s => s.toDo level retries < w) :=
  (retrying.wakes fair rfl).or_end (Program.Retrying.on_at (look_gets_on fair d c))

/-- While its next digit is at the head of the ring, a consumer that does not wait gets on. -/
theorem Consumer.gets_on (fair : x.Fair (Threads.Able (noted N)) Eq)
    (stocked : x₀.1.wIdx ≠ x₀.1.rIdx) {l : Consumer}
    (hi : digits[l.cDepot.index]? = some x₀.1.head) (hr : l.triesAgain = true)
    (hw : l.pc ≠ .waitNotEmpty) (he : l.pc ≠ .lockRelease → x₀.1.head = l.expectedItem) :
    x.LeadsTo (Threads.On .lock level retries w x₀ (consumer j) l)
      (fun s => s.toDo level retries < w) := by
  have test : ∀ d c, x.LeadsTo
      (Threads.On .lock level retries w x₀ (consumer j) ⟨.test, d, c, x₀.1.head⟩)
      (fun s => s.toDo level retries < w) := fun d c => by
    apply (retrying.computes fair rfl).or_end
    simp only [if_neg stocked]
    exact Program.Retrying.on_at (look_gets_on fair d c)
  have acquire : ∀ d c, x.LeadsTo
      (Threads.On .lock level retries w x₀ (consumer j) ⟨.lockAcquire, d, c, x₀.1.head⟩)
      (fun s => s.toDo level retries < w) := fun d c =>
    (retrying.acquires fair rfl).or_end (Program.Retrying.on_at (test d c))
  obtain ⟨pc, d, c, e⟩ := l
  cases pc with
  | lockAcquire =>
      obtain rfl : x₀.1.head = e := he (by simp)
      exact acquire d c
  | test =>
      obtain rfl : x₀.1.head = e := he (by simp)
      exact test d c
  | look =>
      obtain rfl : x₀.1.head = e := he (by simp)
      exact look_gets_on fair d c
  | lockRelease =>
      apply (retrying.releases fair rfl).or_end
      have expected := ditoaChar_eq (index_lt hi) e
      rw [hi] at expected
      rw [head, Consumer.loop_eq (index_lt hi), ← Option.some.inj expected]
      exact Program.Retrying.on_at (acquire d c)
  | waitNotEmpty => exact absurd rfl hw
  | _ => cases hr

/-- With at most fifteen pairs, in a fair execution all children come to their end. -/
theorem terminates (hN : N ≤ 15) (fair : x.Fair (Threads.Able (noted N)) Eq) :
    ∃ n, ∀ p, noted N p ((x.state n).loc p) = .stop := by
  refine retrying.terminates fair fun n busy able => ?_
  have hr := x.reachable n
  have steady := retrying.steady hr fun q t ht ho => by
    obtain ⟨l, act⟩ := (retrying.coherent hr).called q _ ht
    exact ne_semWait q _ t l act
  by_cases queued : ∃ q, q ∈ (x.state n).session.mon.waiting (.lock .lock) ∧
      retries q ((x.state n).loc q) = false
  · obtain ⟨q, hq⟩ := queued
    exact retrying.works_queued fair _ _ q n ⟨steady, hq⟩
  push Not at queued
  have queued (q : Child N) (hq : q ∈ (x.state n).session.mon.waiting (.lock .lock)) :
      retries q ((x.state n).loc q) = true := Bool.ne_false_iff.mp (queued q hq)
  have producers := Producer.through_or_waits hr able queued
  have consumers := Consumer.through_or_tries hr able queued
  have pace := paced hr fun p ho => able p (retrying.owner_able hr ho (steady.owner p ho))
  obtain ⟨stocked, empty⟩ := stocked_of_trying hN hr pace producers consumers busy
  obtain ⟨j, hret, hj⟩ := places.exists_trying (reachable_knows hr) (reachable_ring hr).fits stocked
    fun j => (consumers j).imp (fun hf => congrArg places.done hf)
      fun hret => ⟨Consumer.taken_of_tries hret, hret⟩
  have hk : ((x.state n).consumerAt j).Knows places _ := reachable_knows hr (consumer j)
  have expected (h : ((x.state n).consumerAt j).pc ≠ .lockRelease) :
      (x.state n).buf.head = ((x.state n).consumerAt j).expectedItem :=
    Option.some.inj (hj.symm.trans (hk.seeks (Consumer.seeks_of_tries hret h)))
  by_cases hpc : ((x.state n).consumerAt j).pc = .waitNotEmpty
  · obtain ⟨inside, awake⟩ := woken hr stocked empty hpc
    have loc : (x.state n).loc (consumer j) = ⟨.waitNotEmpty, ((x.state n).consumerAt j).cDepot,
        ((x.state n).consumerAt j).product, (x.state n).buf.head⟩ := by
      rw [expected (by simp [hpc]), ← hpc]
    exact Consumer.woken_gets_on fair _ _ n ⟨⟨steady, loc, inside⟩, awake⟩
  · exact Consumer.gets_on fair ((reachable_ring hr).stocked_iff.mp stocked) hj hret hpc expected n
      ⟨steady, rfl⟩

end Fair

end DlxOs.Apps.Q4
