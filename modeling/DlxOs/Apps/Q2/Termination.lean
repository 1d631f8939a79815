import DlxOs.Apps.Completion
import DlxOs.Apps.Rounds

/-!
# The ring buffer with a lock comes to its end

Children that find the ring full or empty, or another item than their own, go
round without result. The lock is handed on in the order of its queue, so in a
fair execution it comes to a producer while the ring has room, and to the
consumer that expects the head while it holds an item.
-/

namespace DlxOs.Apps.Q2

open Monitors Transition

/-- What is left of a producer's round, in which it may try again. -/
def ProducerPc.left : ProducerPc → ℕ
  | .store => 3
  | .lockRelease => 2
  | .signalCompleted => 1
  | .finished => 0
  | _ => 4

def ConsumerPc.left : ConsumerPc → ℕ
  | .remove => 3
  | .lockRelease => 2
  | .signalCompleted => 1
  | .finished => 0
  | _ => 4

/-- The places of a round before something gets done. -/
def ProducerPc.retries : ProducerPc → Bool
  | .lockAcquire => true
  | .test => true
  | .lockReleaseFull => true
  | _ => false

def ConsumerPc.retries : ConsumerPc → Bool
  | .lockAcquire => true
  | .test => true
  | .lockReleaseEmpty => true
  | .look => true
  | .lockReleaseElse => true
  | _ => false

/-- How far such a round is from giving the lock away. -/
def ProducerPc.rank : ProducerPc → ℕ
  | .lockAcquire => 2
  | .test => 1
  | _ => 0

def ConsumerPc.rank : ConsumerPc → ℕ
  | .lockAcquire => 3
  | .test => 2
  | .look => 1
  | _ => 0

variable {N : ℕ} {first : ℕ → Char} {s : State N}

abbrev level : (p : Child N) → Loc N p → ℕ := childLevel ProducerPc.left ConsumerPc.left

def retries : (p : Child N) → Loc N p → Bool
  | .inl _, l => l.pc.retries
  | .inr _, l => l.pc.retries

def rank : (p : Child N) → Loc N p → ℕ
  | .inl _, l => l.pc.rank
  | .inr _, l => l.pc.rank

/-- Every action of a child brings its level down, or belongs to a round without result. -/
theorem goesOn (p : Child N) (l : Loc N p) :
    (noted N p l).GoesOn (retries p) (level p) (rank p) l := by
  cases p with
  | inl i =>
      obtain ⟨pc, d, c⟩ := l
      cases pc with
      | lockAcquire => exact ⟨le_rfl, by simp, fun _ => Nat.lt_succ_self _⟩
      | test =>
          intro x
          change level (producer i) ⟨ite _ _ _, d, c⟩ ≤ _ ∧ x = x ∧ ProducerPc.rank (ite _ _ _) < 1
          split_ifs
          · exact ⟨le_rfl, rfl, by decide⟩
          · exact ⟨Nat.le_succ _, rfl, by decide⟩
      | lockReleaseFull =>
          exact ⟨Apps.Producer.loop_level_le (by decide) le_rfl, by simp,
            fun h => absurd rfl (h .lock)⟩
      | store => exact fun x => Nat.lt_succ_self _
      | lockRelease =>
          exact Apps.Producer.loop_level_lt (Nat.lt_succ_self _) (by simp [ProducerPc.left])
      | signalCompleted => exact Nat.lt_succ_self _
      | finished => trivial
  | inr j =>
      obtain ⟨pc, d, c, e⟩ := l
      cases pc with
      | lockAcquire => exact ⟨le_rfl, by simp, fun _ => Nat.lt_succ_self _⟩
      | test =>
          intro x
          change level (consumer j) ⟨ite _ _ _, d, c, e⟩ ≤ _ ∧ x = x ∧
            ConsumerPc.rank (ite _ _ _) < 2
          split_ifs
          · exact ⟨le_rfl, rfl, by decide⟩
          · exact ⟨le_rfl, rfl, by decide⟩
      | look =>
          intro x
          change level (consumer j) ⟨ite _ _ _, d, c, e⟩ ≤ _ ∧ x = x ∧
            ConsumerPc.rank (ite _ _ _) < 1
          split_ifs
          · exact ⟨Nat.le_succ _, rfl, by decide⟩
          · exact ⟨le_rfl, rfl, by decide⟩
      | lockReleaseEmpty =>
          exact ⟨Apps.Consumer.loop_level_le (by decide) le_rfl, by simp,
            fun h => absurd rfl (h .lock)⟩
      | lockReleaseElse =>
          exact ⟨Apps.Consumer.loop_level_le (by decide) le_rfl, by simp,
            fun h => absurd rfl (h .lock)⟩
      | remove => exact fun x => Nat.lt_succ_self _
      | lockRelease =>
          exact Apps.Consumer.loop_level_lt (Nat.lt_succ_self _) (by simp [ConsumerPc.left])
      | signalCompleted => exact Nat.lt_succ_self _
      | finished => trivial

theorem ProducerPc.rank_lt (pc : ProducerPc) : pc.rank < 4 := by
  cases pc <;> decide

theorem ConsumerPc.rank_lt (pc : ConsumerPc) : pc.rank < 4 := by
  cases pc <;> decide

theorem retrying : (noted N).Retrying (begin N first) .lock holds retries level rank 4 where
  fresh := begin_fresh
  only _ := rfl
  disciplined := disciplined
  bound _ := rfl
  outside := begin_outside
  stops := returns.stop_outside
  goesOn := goesOn
  rank_lt
    | .inl _, l => l.pc.rank_lt
    | .inr _, l => l.pc.rank_lt

/-- Who has stopped or retries is not between an item and its count. -/
theorem Producer.stored_eq {l : Producer} (h : l.action (N := N) ≠ .stop → l.pc.retries = true) :
    places.stored l.pc = false := by
  obtain ⟨pc, d, c⟩ := l
  cases pc with
  | lockRelease => cases h (fun act => by cases act)
  | _ => rfl

theorem Consumer.taken_eq {l : Consumer} (h : l.action (N := N) ≠ .stop → l.pc.retries = true) :
    places.taken l.pc = false := by
  obtain ⟨pc, d, c, e⟩ := l
  cases pc with
  | lockRelease => cases h (fun act => by cases act)
  | _ => rfl

/-- Who has items left has work to do. -/
theorem Producer.unfinished {l : Producer} {mine : List Char} (hk : l.Knows places mine)
    (hi : l.pDepot.index < 10) : l.action (N := N) ≠ .stop := by
  intro act
  have := hk.done (by simp [places, Producer.stop_iff.mp act])
  omega

theorem Consumer.unfinished {l : Consumer} {mine : List Char} (hk : l.Knows places mine)
    (hi : l.cDepot.index < 10) : l.action (N := N) ≠ .stop := by
  intro act
  have := hk.done (by simp [places, Consumer.stop_iff.mp act])
  omega

theorem ProducerPc.busy_of_retries {pc : ProducerPc} (h : pc.retries = true) :
    places.busy pc = true := by
  cases pc <;> first | rfl | cases h

theorem ConsumerPc.seeks_of_retries {pc : ConsumerPc} (h : pc.retries = true) :
    places.seeks pc = true := by
  cases pc <;> first | rfl | cases h

section Fair

variable {x : (system N first).Execution} {w : ℕ} {x₀ : SharedBuffer × Record N} {i j : Fin N}

/-- While the ring has room, a producer with items left gets on. -/
theorem Producer.gets_on (fair : x.Fair (Threads.Able (noted N)) Eq)
    (room : (x₀.1.wIdx + 1) % bufferSize ≠ x₀.1.rIdx) {l : Producer} (hi : l.pDepot.index < 10)
    (hr : l.pc.retries = true) :
    x.LeadsTo (Threads.On .lock level retries w x₀ (producer i) l)
      (fun s => s.toDo level retries < w) := by
  have test : ∀ d c, x.LeadsTo (Threads.On .lock level retries w x₀ (producer i) ⟨.test, d, c⟩)
      (fun s => s.toDo level retries < w) := fun d c => by
    apply (retrying.computes fair rfl).or_end
    simp only [if_neg room]
    exact retrying.works_at fair (fun act => by cases act) rfl
  have acquire : ∀ d c, x.LeadsTo
      (Threads.On .lock level retries w x₀ (producer i) ⟨.lockAcquire, d, c⟩)
      (fun s => s.toDo level retries < w) := fun d c =>
    (retrying.acquires fair rfl).or_end (Program.Retrying.on_at (test d c))
  obtain ⟨pc, d, c⟩ := l
  cases pc with
  | lockAcquire => exact acquire d c
  | test => exact test d c
  | lockReleaseFull =>
      apply (retrying.releases fair rfl).or_end
      rw [head, Producer.loop_eq hi]
      exact Program.Retrying.on_at (acquire d _)
  | _ => cases hr

/-- While its next digit is at the head of the ring, a consumer gets on. -/
theorem Consumer.gets_on (fair : x.Fair (Threads.Able (noted N)) Eq)
    (stocked : x₀.1.wIdx ≠ x₀.1.rIdx) {l : Consumer}
    (hi : digits[l.cDepot.index]? = some x₀.1.head) (hr : l.pc.retries = true)
    (he : x₀.1.head = l.expectedItem) :
    x.LeadsTo (Threads.On .lock level retries w x₀ (consumer j) l)
      (fun s => s.toDo level retries < w) := by
  have look : ∀ d c, x.LeadsTo
      (Threads.On .lock level retries w x₀ (consumer j) ⟨.look, d, c, x₀.1.head⟩)
      (fun s => s.toDo level retries < w) := fun d c => by
    apply (retrying.computes fair rfl).or_end
    simp only [if_pos]
    exact retrying.works_at fair (fun act => by cases act) rfl
  have test : ∀ d c, x.LeadsTo
      (Threads.On .lock level retries w x₀ (consumer j) ⟨.test, d, c, x₀.1.head⟩)
      (fun s => s.toDo level retries < w) := fun d c => by
    apply (retrying.computes fair rfl).or_end
    simp only [if_neg stocked]
    exact Program.Retrying.on_at (look d c)
  have acquire : ∀ d c, x.LeadsTo
      (Threads.On .lock level retries w x₀ (consumer j) ⟨.lockAcquire, d, c, x₀.1.head⟩)
      (fun s => s.toDo level retries < w) := fun d c =>
    (retrying.acquires fair rfl).or_end (Program.Retrying.on_at (test d c))
  have again : ∀ {l : Consumer}, digits[l.cDepot.index]? = some x₀.1.head → x.LeadsTo
      (Threads.At .lock level retries w x₀ (consumer j) (head l) none)
      (fun s => s.toDo level retries < w) := fun {l} hi => by
    have expected := ditoaChar_eq (index_lt hi) l.expectedItem
    rw [hi] at expected
    rw [head, Consumer.loop_eq (index_lt hi), ← Option.some.inj expected]
    exact Program.Retrying.on_at (acquire _ _)
  obtain ⟨pc, d, c, e⟩ := l
  obtain rfl : x₀.1.head = e := he
  cases pc with
  | lockAcquire => exact acquire d c
  | test => exact test d c
  | look => exact look d c
  | lockReleaseEmpty => exact (retrying.releases fair rfl).or_end (again hi)
  | lockReleaseElse => exact (retrying.releases fair rfl).or_end (again hi)
  | _ => cases hr

/-- Who does not retry is awake. -/
theorem awake_of_works (hr : (system N first).Reachable s) {p : Child N}
    (hret : retries p (s.loc p) = false) : s.session.Awake p := by
  intro v hv
  have coherent := retrying.coherent hr
  obtain ⟨c, hc, e⟩ := coherent.sound.pending v p hv
  obtain ⟨next, act⟩ := coherent.called p c hc
  have act := Program.noted_call.mp act
  generalize s.loc p = l at hret act
  cases p with
  | inl i =>
      obtain ⟨pc, d, c⟩ := l
      cases pc <;> cases act <;> cases hret <;> cases e
  | inr j =>
      obtain ⟨pc, d, c, e⟩ := l
      cases pc <;> cases act <;> cases hret <;> cases e

/-- In a fair execution all children come to their end. -/
theorem terminates (fair : x.Fair (Threads.Able (noted N)) Eq) :
    ∃ n, ∀ p, noted N p ((x.state n).loc p) = .stop := by
  refine retrying.terminates fair fun n busy able => ?_
  have hr := x.reachable n
  have trying : ∀ p, noted N p ((x.state n).loc p) ≠ .stop →
      retries p ((x.state n).loc p) = true := fun p hp => by
    by_contra hret
    exact hret (able p ⟨hp, awake_of_works hr (Bool.eq_false_iff.mpr hret)⟩)
  have steady := retrying.steady hr fun q t ht ho => by
    obtain ⟨l, act⟩ := (retrying.coherent hr).called q _ ht
    exact ne_semWait q _ t l act
  have hok : RingOk first (x.state n).mem := (reachable_safety hr).memory
  have knows := reachable_knows hr
  have kp (i : Fin N) : ((x.state n).producerAt i).Knows places _ := knows (producer i)
  have kc (j : Fin N) : ((x.state n).consumerAt j).Knows places _ := knows (consumer j)
  have left : (∃ i, ((x.state n).producerAt i).pDepot.index < 10) ∨
      ∃ j, ((x.state n).consumerAt j).cDepot.index < 10 := by
    obtain ⟨p, hp⟩ := busy
    have hret := trying p hp
    cases p with
    | inl i => exact .inl ⟨i, index_lt ((kp i).busy (ProducerPc.busy_of_retries hret))⟩
    | inr j => exact .inr ⟨j, index_lt ((kc j).seeks (ConsumerPc.seeks_of_retries hret))⟩
  have stored (i : Fin N) : places.stored ((x.state n).producerAt i).pc = false :=
    Producer.stored_eq fun hp => trying (producer i) (Program.noted_stop.not.mpr hp)
  have taken (j : Fin N) : places.taken ((x.state n).consumerAt j).pc = false :=
    Consumer.taken_eq fun hp => trying (consumer j) (Program.noted_stop.not.mpr hp)
  rcases places.exists_turn knows hok.fits stored taken left with
    ⟨room, i, hi⟩ | ⟨stocked, j, hj⟩
  · have hp : noted N (producer i) ((x.state n).loc (producer i)) ≠ .stop :=
      Program.noted_stop.not.mpr (Producer.unfinished (kp i) hi)
    exact Producer.gets_on fair (hok.room_iff.mp room) hi (trying _ hp) n ⟨steady, rfl⟩
  · have hp : noted N (consumer j) ((x.state n).loc (consumer j)) ≠ .stop :=
      Program.noted_stop.not.mpr (Consumer.unfinished (kc j) (index_lt hj))
    have hret := trying _ hp
    have expected := (kc j).seeks (ConsumerPc.seeks_of_retries hret)
    exact Consumer.gets_on fair (hok.stocked_iff.mp stocked) hj hret
      (Option.some.inj (hj.symm.trans expected)) n ⟨steady, rfl⟩

end Fair

end DlxOs.Apps.Q2
