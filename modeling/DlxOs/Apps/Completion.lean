import DlxOs.Apps.Q2.Safety
import DlxOs.Apps.Q3.Safety
import DlxOs.Apps.Q4.Safety
import DlxOs.Apps.Q5
import DlxOs.Kernel.Beginnings

/-!
# What the parents wait for

`makeprocs` waits on `s_procs_completed` before it exits. When it gets through,
every item has been through the ring buffer, and the atmosphere holds the
molecules that the counts on the command line allow, whatever the kernel and
the other processes did in between.
-/

namespace DlxOs.Apps

open Monitors Kernel Transition

variable {m : Machine} {e : KEvent} {N : ℕ}

/-! ### How the children of a ring program end -/

section Children

variable {S L C PP CP : Type} [DecidableEq PP] [DecidableEq CP]

/-- The `main` of the child has returned. -/
def returned (producerEnd : PP) (consumerEnd : CP) : (p : Child N) → Loc N PP CP p → Bool
  | .inl _, l => l.pc = producerEnd
  | .inr _, l => l.pc = consumerEnd

theorem unreturned {producerEnd : PP} {consumerEnd : CP} {loc : (p : Child N) → Loc N PP CP p}
    (producers : ∀ i, decide ((loc (producer i)).pc = producerEnd) = false)
    (consumers : ∀ j, decide ((loc (consumer j)).pc = consumerEnd) = false) :
    ∀ p, returned producerEnd consumerEnd p (loc p) = false
  | .inl i => producers i
  | .inr j => consumers j

/-- `makeprocs` creates `s_procs_completed` with one less than minus the number of children. -/
theorem count_eq (N : ℕ) : -(2 * (N : ℤ) - 1) = 1 - (Fintype.card (Child N) : ℤ) := by
  rw [Fintype.card_sum, Fintype.card_fin]
  push_cast
  omega

/-- A child stops when its `main` has returned, outside the lock and with all its items moved, and
no child hands a lock over. -/
structure Returns (π : Program (Child N) S L C (Loc N PP CP) SharedBuffer) (P : Places PP CP)
    (holds : (p : Child N) → Loc N PP CP p → Prop) (producerEnd : PP) (consumerEnd : CP) :
    Prop where
  producer : ∀ i (l : Producer PP), π (.inl i) l = .stop → l.pc = producerEnd
  consumer : ∀ j (l : Consumer CP), π (.inr j) l = .stop → l.pc = consumerEnd
  outside : ∀ p l, returned producerEnd consumerEnd p l = true → ¬ holds p l
  stored : P.busy producerEnd = false ∧ P.stored producerEnd = false
  taken : P.done consumerEnd = true ∧ P.taken consumerEnd = false
  keeps : ∀ p l k q next, π p l ≠ .call (.transfer k q) next

namespace Returns

variable {π : Program (Child N) S L C (Loc N PP CP) SharedBuffer} {P : Places PP CP}
  {holds : (p : Child N) → Loc N PP CP p → Prop} {producerEnd : PP} {consumerEnd : CP}
  {start s : Threads (Child N) S L C (Loc N PP CP) (SharedBuffer × Record N)}

theorem of_stop (h : Returns π P holds producerEnd consumerEnd) {p : Child N} {l : Loc N PP CP p}
    (act : π.noted P.note p l = .stop) : returned producerEnd consumerEnd p l = true := by
  have act := Program.noted_stop.mp act
  cases p with
  | inl i => exact decide_eq_true (h.producer i l act)
  | inr j => exact decide_eq_true (h.consumer j l act)

/-- A child that stops has let the lock go. -/
theorem stop_outside (h : Returns π P holds producerEnd consumerEnd) (p : Child N)
    (l : Loc N PP CP p) (act : π.noted P.note p l = .stop) : ¬ holds p l :=
  h.outside p l (h.of_stop act)

/-- The kernel has a request for each call. -/
theorem asks (h : Returns π P holds producerEnd consumerEnd) (ν : Handles S L C) (p : Child N)
    (l : Loc N PP CP p) (c : Call (Child N) S L C) (next : Loc N PP CP p)
    (act : π.noted P.note p l = .call c next) : ∃ sys, ν.request c = some sys := by
  refine Handles.request_some fun k q e => ?_
  subst e
  exact h.keeps p l k q next (Program.noted_call.mp act)

variable [DecidableEq S] [DecidableEq L] [DecidableEq C] in
/-- Nobody stops with the lock of a disciplined program. -/
theorem lets (h : Returns π P holds producerEnd consumerEnd) (fresh : start.Fresh) {k : L}
    (disciplined : (π.noted P.note).Disciplined k holds)
    (bound : ∀ c, start.session.mon.bound c = k) (outside : ∀ p, ¬ holds p (start.loc p))
    (hs : ((π.noted P.note).system start).Reachable s) {p : Child N}
    (act : π.noted P.note p (s.loc p) = .stop) : s.session.mon.owner k ≠ some p :=
  Threads.stops_without fresh disciplined bound outside h.stop_outside hs act

/-- When all children have returned, all digits have gone through the ring. -/
theorem all_moved (h : Returns π P holds producerEnd consumerEnd)
    {loc : (p : Child N) → Loc N PP CP p} {x : SharedBuffer × Record N}
    (knows : ∀ p, P.Knows p (loc p) x)
    (all : ∀ p, returned producerEnd consumerEnd p (loc p) = true) :
    (∀ i, x.2.insertedBy i = digits) ∧ (∀ j, x.2.removedBy j = digits) ∧ x.2.unconsumed = [] := by
  refine P.all_moved knows (fun i => ?_) fun j => ?_
  · rw [show (loc (Apps.producer i)).pc = producerEnd from of_decide_eq_true (all (.inl i))]
    exact h.stored
  · rw [show (loc (Apps.consumer j)).pc = consumerEnd from of_decide_eq_true (all (.inr j))]
    exact h.taken

end Returns

end Children

namespace Q2

variable {first : ℕ → Char}

instance : Fintype Sem := ⟨{.procsCompleted}, fun s => by cases s; decide⟩

instance : Fintype Lock := ⟨{.lock}, fun k => by cases k; decide⟩

/-- The child has signalled `s_procs_completed`. -/
abbrev signalled : (p : Child N) → Loc N p → Bool := returned .finished .finished

theorem Producer.head_unsignalled (l : Producer) : decide ((head l).pc = .finished) = false :=
  l.loop_at (fun pc : ProducerPc => decide (pc = .finished)) .lockAcquire .signalCompleted rfl rfl

theorem Consumer.head_unsignalled (l : Consumer) : decide ((head l).pc = .finished) = false :=
  l.loop_at (fun pc : ConsumerPc => decide (pc = .finished)) .lockAcquire .signalCompleted rfl rfl

theorem signalsOnce : SignalsOnce (program N) .procsCompleted signalled := by
  intro p l
  cases p with
  | inl i =>
      obtain ⟨pc, d, c⟩ := l
      cases pc with
      | lockAcquire => exact ⟨nofun, fun _ => rfl⟩
      | test =>
          intro buf
          change decide (ite _ _ _ = ProducerPc.finished) = false
          split <;> rfl
      | lockReleaseFull => exact ⟨nofun, fun _ => Producer.head_unsignalled _⟩
      | store => exact fun _ => rfl
      | lockRelease => exact ⟨nofun, fun _ => Producer.head_unsignalled _⟩
      | signalCompleted => exact ⟨fun _ => ⟨rfl, rfl⟩, fun h => absurd rfl h⟩
      | finished => trivial
  | inr j =>
      obtain ⟨pc, d, c, x⟩ := l
      cases pc with
      | lockAcquire => exact ⟨nofun, fun _ => rfl⟩
      | test =>
          intro buf
          change decide (ite _ _ _ = ConsumerPc.finished) = false
          split <;> rfl
      | lockReleaseEmpty => exact ⟨nofun, fun _ => Consumer.head_unsignalled _⟩
      | look =>
          intro buf
          change decide (ite _ _ _ = ConsumerPc.finished) = false
          split <;> rfl
      | remove => exact fun _ => rfl
      | lockRelease => exact ⟨nofun, fun _ => Consumer.head_unsignalled _⟩
      | lockReleaseElse => exact ⟨nofun, fun _ => Consumer.head_unsignalled _⟩
      | signalCompleted => exact ⟨fun _ => ⟨rfl, rfl⟩, fun h => absurd rfl h⟩
      | finished => trivial

theorem begin_unsignalled : ∀ p : Child N, signalled p ((begin N first).loc p) = false :=
  unreturned (fun _ => Producer.head_unsignalled _) fun _ => Consumer.head_unsignalled _

theorem begin_count : (begin N first).session.mon.count .procsCompleted =
    1 - (Fintype.card (Child N) : ℤ) := count_eq N

theorem returns : Returns (program N) places holds .finished .finished where
  producer i l act := Producer.stop_iff.mp act
  consumer j l act := Consumer.stop_iff.mp act
  outside p l hp := by
    cases p with
    | inl i =>
        change ¬ l.pc.inside = true
        rw [show l.pc = _ from of_decide_eq_true hp]
        exact Bool.false_ne_true
    | inr j =>
        change ¬ l.pc.inside = true
        rw [show l.pc = _ from of_decide_eq_true hp]
        exact Bool.false_ne_true
  stored := ⟨rfl, rfl⟩
  taken := ⟨rfl, rfl⟩
  keeps p l k q next act := by
    cases p with
    | inl i =>
        obtain ⟨pc, d, c⟩ := l
        cases pc <;> cases act
    | inr j =>
        obtain ⟨pc, d, c, x⟩ := l
        cases pc <;> cases act

variable {ν : Handles Sem Lock Cond} {h : Hosted (Child N) (Loc N) (SharedBuffer × Record N)}

theorem ne_semWait (p : Child N) (l : Loc N p) (s : Sem) (next : Loc N p) :
    noted N p l ≠ .call (.semWait s) next := by
  intro act
  have act := Program.noted_call.mp act
  cases p with
  | inl i =>
      obtain ⟨pc, d, c⟩ := l
      cases pc <;> cases act
  | inr j =>
      obtain ⟨pc, d, c, x⟩ := l
      cases pc <;> cases act

theorem quiet (p : Child N) (l : Loc N p) (s : Sem) (next : Loc N p) (_ : ν.common s) :
    noted N p l ≠ .call (.semWait s) next :=
  ne_semWait p l s next

theorem lets (s : State N) (hs : (system N first).Reachable s) (p : Child N)
    (act : noted N p (s.loc p) = .stop) (k : Lock) : s.session.mon.owner k ≠ some p :=
  returns.lets begin_fresh disciplined (fun _ => rfl) begin_outside hs act

/-- When the parent gets through its wait, every producer has inserted all digits, every consumer
has removed all digits, and nothing is left in the ring. -/
theorem lock_ring_done_when_parent_returns
    (hr : ((hostedSystem (noted N) ν (begin N first)).restrict fun _ e =>
      e.Unsignalled (ν.sem .procsCompleted)).Reachable h)
    (hs : h.machine.Step e m) (through : e.GetsThrough (ν.sem .procsCompleted)) :
    (∀ i, h.mem.2.insertedBy i = digits) ∧ (∀ j, h.mem.2.removedBy j = digits) ∧
      h.mem.2.unconsumed = [] := by
  have all := all_signalled begin_fresh quiet lets (signalsOnce.noted _) begin_count
    begin_unsignalled hr hs through
  obtain ⟨σ, hσ, -⟩ := hosted_simulates begin_fresh quiet lets hr.unrestricted
  exact returns.all_moved (reachable_knows hσ) all

/-- The parent of one pair gets through its wait. -/
theorem lock_ring_done_when_parent_returns_one_pair :
    ∃ (ν : Handles Sem Lock Cond) (h : Hosted (Child 1) (Loc 1) (SharedBuffer × Record 1))
      (e : KEvent) (m : Machine), h.machine.Step e m ∧ e.GetsThrough (ν.sem .procsCompleted) ∧
      (∀ i, h.mem.2.insertedBy i = digits) ∧ (∀ j, h.mem.2.removedBy j = digits) ∧
      h.mem.2.unconsumed = [] := by
  obtain ⟨ν, h, e, m, common, hr, hs, through⟩ := exists_returns (π := noted 1)
    (begin_fresh : (begin 1 fun _ => 'x').Fresh) returns.asks (· = .procsCompleted) (by decide)
    (by decide) (by decide) (by decide)
    (List.replicate 41 (producer 0) ++ List.replicate 51 (consumer 0)) .procsCompleted
    (by decide)
  exact ⟨ν, h, e, m, hs, through, lock_ring_done_when_parent_returns
    (hr.weaken fun _ _ he => he.unsignalled _) hs through⟩

end Q2

namespace Q3

instance : Fintype Sem :=
  ⟨{.procsCompleted, .fullslots, .emptyslots}, fun s => by cases s <;> decide⟩

instance : Fintype Lock := ⟨{.lock}, fun k => by cases k; decide⟩

/-- The child has signalled `s_procs_completed`. -/
abbrev signalled : (p : Child N) → Loc N p → Bool := returned .finished .finished

theorem Producer.head_unsignalled (l : Producer) : decide ((head l).pc = .finished) = false :=
  l.loop_at (fun pc : ProducerPc => decide (pc = .finished)) .waitEmptySlot .signalCompleted rfl rfl

theorem Consumer.head_unsignalled (l : Consumer) : decide ((head l).pc = .finished) = false :=
  l.loop_at (fun pc : ConsumerPc => decide (pc = .finished)) .lockAcquire .signalCompleted rfl rfl

theorem signalsOnce : SignalsOnce (program N) .procsCompleted signalled := by
  intro p l
  cases p with
  | inl i =>
      obtain ⟨pc, d, c⟩ := l
      cases pc with
      | signalFullSlot => exact ⟨nofun, fun _ => Producer.head_unsignalled _⟩
      | signalCompleted => exact ⟨fun _ => ⟨rfl, rfl⟩, fun h => absurd rfl h⟩
      | store => exact fun _ => rfl
      | finished => trivial
      | _ => exact ⟨nofun, fun _ => rfl⟩
  | inr j =>
      obtain ⟨pc, d, c, x⟩ := l
      cases pc with
      | test =>
          intro buf
          change decide (ite _ _ _ = ConsumerPc.finished) = false
          split <;> rfl
      | remove => exact fun _ => rfl
      | signalEmptySlot => exact ⟨nofun, fun _ => Consumer.head_unsignalled _⟩
      | lockReleaseElse => exact ⟨nofun, fun _ => Consumer.head_unsignalled _⟩
      | signalCompleted => exact ⟨fun _ => ⟨rfl, rfl⟩, fun h => absurd rfl h⟩
      | finished => trivial
      | _ => exact ⟨nofun, fun _ => rfl⟩

theorem begin_unsignalled : ∀ p : Child N, signalled p ((begin N).loc p) = false :=
  unreturned (fun _ => Producer.head_unsignalled _) fun _ => Consumer.head_unsignalled _

theorem begin_count : (begin N).session.mon.count .procsCompleted =
    1 - (Fintype.card (Child N) : ℤ) := count_eq N

theorem returns : Returns (program N) places holds .finished .finished where
  producer i l act := by
    obtain ⟨pc, d, c⟩ := l
    cases pc <;> cases act
    rfl
  consumer j l act := by
    obtain ⟨pc, d, c, x⟩ := l
    cases pc <;> cases act
    rfl
  outside p l hp := by
    cases p with
    | inl i =>
        change ¬ l.pc.inside = true
        rw [show l.pc = _ from of_decide_eq_true hp]
        exact Bool.false_ne_true
    | inr j =>
        change ¬ l.pc.inside = true
        rw [show l.pc = _ from of_decide_eq_true hp]
        exact Bool.false_ne_true
  stored := ⟨rfl, rfl⟩
  taken := ⟨rfl, rfl⟩
  keeps p l k q next act := by
    cases p with
    | inl i =>
        obtain ⟨pc, d, c⟩ := l
        cases pc <;> cases act
    | inr j =>
        obtain ⟨pc, d, c, x⟩ := l
        cases pc <;> cases act

variable {ν : Handles Sem Lock Cond} {h : Hosted (Child N) (Loc N) (SharedBuffer × Record N)}

theorem quiet (common : ∀ s, ν.common s → s = .procsCompleted) (p : Child N) (l : Loc N p)
    (s : Sem) (next : Loc N p) (hs : ν.common s) : noted N p l ≠ .call (.semWait s) next := by
  intro act
  obtain rfl := common s hs
  have act := Program.noted_call.mp act
  cases p with
  | inl i =>
      obtain ⟨pc, d, c⟩ := l
      cases pc <;> cases act
  | inr j =>
      obtain ⟨pc, d, c, x⟩ := l
      cases pc <;> cases act

theorem lets (s : State N) (hs : (system N).Reachable s) (p : Child N)
    (act : noted N p (s.loc p) = .stop) (k : Lock) : s.session.mon.owner k ≠ some p :=
  returns.lets begin_fresh disciplined (fun _ => rfl) begin_outside hs act

/-- When the parent gets through its wait, every producer has inserted all digits, every consumer
has removed all digits, and nothing is left in the ring. -/
theorem semaphore_ring_done_when_parent_returns (common : ∀ s, ν.common s → s = .procsCompleted)
    (hr : ((hostedSystem (noted N) ν (begin N)).restrict fun _ e =>
      e.Unsignalled (ν.sem .procsCompleted)).Reachable h)
    (hs : h.machine.Step e m) (through : e.GetsThrough (ν.sem .procsCompleted)) :
    (∀ i, h.mem.2.insertedBy i = digits) ∧ (∀ j, h.mem.2.removedBy j = digits) ∧
      h.mem.2.unconsumed = [] := by
  have all := all_signalled begin_fresh (quiet common) lets (signalsOnce.noted _) begin_count
    begin_unsignalled hr hs through
  obtain ⟨σ, hσ, -⟩ := hosted_simulates begin_fresh (quiet common) lets hr.unrestricted
  exact returns.all_moved (reachable_knows hσ) all

/-- The parent of one pair gets through its wait. -/
theorem semaphore_ring_done_when_parent_returns_one_pair :
    ∃ (ν : Handles Sem Lock Cond) (h : Hosted (Child 1) (Loc 1) (SharedBuffer × Record 1))
      (e : KEvent) (m : Machine), h.machine.Step e m ∧ e.GetsThrough (ν.sem .procsCompleted) ∧
      (∀ i, h.mem.2.insertedBy i = digits) ∧ (∀ j, h.mem.2.removedBy j = digits) ∧
      h.mem.2.unconsumed = [] := by
  obtain ⟨ν, h, e, m, common, hr, hs, through⟩ := exists_returns (π := noted 1)
    (begin_fresh (N := 1)) returns.asks (· = .procsCompleted) (by decide) (by decide) (by decide)
    (by decide)
    (List.replicate 51 (producer 0) ++ List.replicate 61 (consumer 0)) .procsCompleted
    (by decide)
  exact ⟨ν, h, e, m, hs, through, semaphore_ring_done_when_parent_returns (by simp [common])
    (hr.weaken fun _ _ he => he.unsignalled _) hs through⟩

end Q3

namespace Q4

instance : Fintype Sem := ⟨{.procsCompleted}, fun s => by cases s; decide⟩

instance : Fintype Lock := ⟨{.lock}, fun k => by cases k; decide⟩

instance : Fintype Cond := ⟨{.notFull, .notEmpty}, fun c => by cases c <;> decide⟩

/-- The child has signalled `s_procs_completed`. -/
abbrev signalled : (p : Child N) → Loc N p → Bool := returned .finished .finished

theorem Producer.head_unsignalled (l : Producer) : decide ((head l).pc = .finished) = false :=
  l.loop_at (fun pc : ProducerPc => decide (pc = .finished)) .lockAcquire .signalCompleted rfl rfl

theorem Consumer.head_unsignalled (l : Consumer) : decide ((head l).pc = .finished) = false :=
  l.loop_at (fun pc : ConsumerPc => decide (pc = .finished)) .lockAcquire .signalCompleted rfl rfl

theorem signalsOnce : SignalsOnce (program N) .procsCompleted signalled := by
  intro p l
  cases p with
  | inl i =>
      obtain ⟨pc, d, c⟩ := l
      cases pc with
      | test =>
          intro buf
          change decide (ite _ _ _ = ProducerPc.finished) = false
          split <;> rfl
      | store => exact fun _ => rfl
      | lockRelease => exact ⟨nofun, fun _ => Producer.head_unsignalled _⟩
      | signalCompleted => exact ⟨fun _ => ⟨rfl, rfl⟩, fun h => absurd rfl h⟩
      | finished => trivial
      | _ => exact ⟨nofun, fun _ => rfl⟩
  | inr j =>
      obtain ⟨pc, d, c, x⟩ := l
      cases pc with
      | test =>
          intro buf
          change decide (ite _ _ _ = ConsumerPc.finished) = false
          split <;> rfl
      | look =>
          intro buf
          change decide (ite _ _ _ = ConsumerPc.finished) = false
          split <;> rfl
      | remove => exact fun _ => rfl
      | lockRelease => exact ⟨nofun, fun _ => Consumer.head_unsignalled _⟩
      | signalCompleted => exact ⟨fun _ => ⟨rfl, rfl⟩, fun h => absurd rfl h⟩
      | finished => trivial
      | _ => exact ⟨nofun, fun _ => rfl⟩

theorem begin_unsignalled : ∀ p : Child N, signalled p ((begin N).loc p) = false :=
  unreturned (fun _ => Producer.head_unsignalled _) fun _ => Consumer.head_unsignalled _

theorem begin_count : (begin N).session.mon.count .procsCompleted =
    1 - (Fintype.card (Child N) : ℤ) := count_eq N

theorem returns : Returns (program N) places holds .finished .finished where
  producer i l act := Producer.stop_iff.mp act
  consumer j l act := Consumer.stop_iff.mp act
  outside p l hp := by
    cases p with
    | inl i =>
        change ¬ l.pc.inside = true
        rw [show l.pc = _ from of_decide_eq_true hp]
        exact Bool.false_ne_true
    | inr j =>
        change ¬ l.pc.inside = true
        rw [show l.pc = _ from of_decide_eq_true hp]
        exact Bool.false_ne_true
  stored := ⟨rfl, rfl⟩
  taken := ⟨rfl, rfl⟩
  keeps p l k q next act := by
    cases p with
    | inl i =>
        obtain ⟨pc, d, c⟩ := l
        cases pc <;> cases act
    | inr j =>
        obtain ⟨pc, d, c, x⟩ := l
        cases pc <;> cases act

variable {ν : Handles Sem Lock Cond} {h : Hosted (Child N) (Loc N) (SharedBuffer × Record N)}

theorem ne_semWait (p : Child N) (l : Loc N p) (s : Sem) (next : Loc N p) :
    noted N p l ≠ .call (.semWait s) next := by
  intro act
  have act := Program.noted_call.mp act
  cases p with
  | inl i =>
      obtain ⟨pc, d, c⟩ := l
      cases pc <;> cases act
  | inr j =>
      obtain ⟨pc, d, c, x⟩ := l
      cases pc <;> cases act

theorem quiet (p : Child N) (l : Loc N p) (s : Sem) (next : Loc N p) (_ : ν.common s) :
    noted N p l ≠ .call (.semWait s) next :=
  ne_semWait p l s next

theorem lets (s : State N) (hs : (system N).Reachable s) (p : Child N)
    (act : noted N p (s.loc p) = .stop) (k : Lock) : s.session.mon.owner k ≠ some p :=
  returns.lets begin_fresh disciplined (fun _ => rfl) begin_outside hs act

/-- When the parent gets through its wait, every producer has inserted all digits, every consumer
has removed all digits, and nothing is left in the ring. -/
theorem cond_ring_done_when_parent_returns
    (hr : ((hostedSystem (noted N) ν (begin N)).restrict fun _ e =>
      e.Unsignalled (ν.sem .procsCompleted)).Reachable h)
    (hs : h.machine.Step e m) (through : e.GetsThrough (ν.sem .procsCompleted)) :
    (∀ i, h.mem.2.insertedBy i = digits) ∧ (∀ j, h.mem.2.removedBy j = digits) ∧
      h.mem.2.unconsumed = [] := by
  have all := all_signalled begin_fresh quiet lets (signalsOnce.noted _) begin_count
    begin_unsignalled hr hs through
  obtain ⟨σ, hσ, -⟩ := hosted_simulates begin_fresh quiet lets hr.unrestricted
  exact returns.all_moved (reachable_knows hσ) all

/-- The parent of one pair gets through its wait. -/
theorem cond_ring_done_when_parent_returns_one_pair :
    ∃ (ν : Handles Sem Lock Cond) (h : Hosted (Child 1) (Loc 1) (SharedBuffer × Record 1))
      (e : KEvent) (m : Machine), h.machine.Step e m ∧ e.GetsThrough (ν.sem .procsCompleted) ∧
      (∀ i, h.mem.2.insertedBy i = digits) ∧ (∀ j, h.mem.2.removedBy j = digits) ∧
      h.mem.2.unconsumed = [] := by
  obtain ⟨ν, h, e, m, common, hr, hs, through⟩ := exists_returns (π := noted 1)
    (begin_fresh (N := 1)) returns.asks (· = .procsCompleted) (by decide) (by decide) (by decide)
    (by decide)
    (List.replicate 51 (producer 0) ++ List.replicate 61 (consumer 0)) .procsCompleted
    (by decide)
  exact ⟨ν, h, e, m, hs, through, cond_ring_done_when_parent_returns
    (hr.weaken fun _ _ he => he.unsignalled _) hs through⟩

end Q4

namespace Q5

variable {a : InjCount} {ν : Handles Sem Empty Empty} {h : Hosted Proc (Loc a) Unit}

/-- Every process signals `s_procs_completed` at the end of its loop. -/
theorem signalsOnce : SignalsOnce (program a) .procsCompleted fun _ l => l.ended := by
  intro p l
  cases l with
  | round left c rest hleft hrest =>
      refine ⟨?_, fun _ => Loop.ended_goOn ..⟩
      rintro rfl
      obtain ⟨m, hc | hc⟩ := body_ops (hrest.mem (List.mem_cons_self ..)) <;> cases hc
  | last => exact ⟨fun _ => ⟨rfl, rfl⟩, fun h => absurd rfl h⟩
  | finished => trivial

theorem quiet (common : ∀ s, ν.common s → s = .procsCompleted) (p : Proc) (l : Loc a p) (s : Sem)
    (next : Loc a p) (hs : ν.common s) : program a p l ≠ .call (.semWait s) next := by
  intro act
  obtain rfl := common s hs
  cases l with
  | round left c rest hleft hrest =>
      cases act
      obtain ⟨m, hc | hc⟩ := body_ops (hrest.mem (List.mem_cons_self ..)) <;> cases hc
  | last => cases act
  | finished => cases act

theorem lets (s : State a) (_ : (system a).Reachable s) (p : Proc)
    (_ : program a p (s.loc p) = .stop) (k : Empty) : s.session.mon.owner k ≠ some p :=
  k.elim

instance : Fintype Sem :=
  ⟨{.procsCompleted, .molecules .n3, .molecules .h2o, .molecules .n, .molecules .h2, .molecules .o2,
    .molecules .no2}, fun s => by
      cases s with
      | procsCompleted => decide
      | molecules m => cases m <;> decide⟩

theorem asks (ν : Handles Sem Empty Empty) (p : Proc) (l : Loc a p)
    (c : Call Proc Sem Empty Empty) (next : Loc a p) (_ : program a p l = .call c next) :
    ∃ sys, ν.request c = some sys :=
  Handles.request_some fun k => k.elim

/-- The molecules that are left over after all reactions. -/
def InjCount.leftOver (a : InjCount) : Molecule → ℤ
  | .n3 => 0
  | .h2o => a.h2o % 2
  | .n => 3 * a.n3 - min (3 * a.n3) (a.h2o / 2)
  | .h2 => 2 * (a.h2o / 2)
  | .o2 => a.h2o / 2 - min (3 * a.n3) (a.h2o / 2)
  | .no2 => min (3 * a.n3) (a.h2o / 2)

theorem molecules_eq (ha : a.Valid) {s : State a} (hs : (system a).Reachable s)
    (hf : ∀ p, Finished (s.loc p)) (x : Molecule) : s.molecules x = a.leftOver x := by
  obtain ⟨h1, h2, h3⟩ := ha.rounds_eq
  have hn : (rounds a (.inl .iN3) : ℤ) = a.n3 := Int.toNat_of_nonneg ha.n3
  have hh : (rounds a (.inl .iH2O) : ℤ) = a.h2o := Int.toNat_of_nonneg ha.h2o
  have final := finished_molecules hs hf x
  cases x <;> simp only [InjCount.leftOver]
  · change s.molecules .n3 + (rounds a (.inr .r1) * 1 : ℕ) =
      (rounds a (.inl .iN3) * 1 : ℕ) at final
    omega
  · change s.molecules .h2o + (rounds a (.inr .r2) * 2 : ℕ) =
      (rounds a (.inl .iH2O) * 1 : ℕ) at final
    omega
  · change s.molecules .n + (rounds a (.inr .r3) * 1 : ℕ) =
      (rounds a (.inr .r1) * 3 : ℕ) at final
    omega
  · change s.molecules .h2 + (rounds a (.inr .r3) * 0 : ℕ) =
      (rounds a (.inr .r2) * 2 : ℕ) at final
    omega
  · change s.molecules .o2 + (rounds a (.inr .r3) * 1 : ℕ) =
      (rounds a (.inr .r2) * 1 : ℕ) at final
    omega
  · change s.molecules .no2 + (rounds a (.inr .r3) * 0 : ℕ) =
      (rounds a (.inr .r3) * 1 : ℕ) at final
    omega

/-- When the parent gets through its wait, the kernel's semaphores hold the molecules that the
counts on the command line allow. -/
theorem molecules_when_parent_returns (ha : a.Valid)
    (common : ∀ s, ν.common s → s = .procsCompleted)
    (hr : ((hostedSystem (program a) ν (start a)).restrict fun _ e =>
      e.Unsignalled (ν.sem .procsCompleted)).Reachable h)
    (hs : h.machine.Step e m) (through : e.GetsThrough (ν.sem .procsCompleted)) (x : Molecule) :
    (h.machine.kernel.sems (ν.sem (.molecules x))).count = a.leftOver x := by
  have all := all_signalled start_fresh (quiet common) lets signalsOnce rfl
    (fun p => Loop.ended_enter ..) hr hs through
  obtain ⟨σ, hσ, shown⟩ := hosted_simulates start_fresh (quiet common) lets hr.unrestricted
  have own : ¬ ν.common (.molecules x) := fun hc => by cases common _ hc
  calc (h.machine.kernel.sems (ν.sem (.molecules x))).count
      = σ.mon.count (.molecules x) := shown.hosts.count (.molecules x) own
    _ = a.leftOver x := molecules_eq ha hσ (fun p => Loop.ended_iff.mp (all p)) x

/-- One molecule of nitrogen and six of water become three of nitrogen dioxide. -/
theorem molecules_when_parent_returns_three :
    ∃ (ν : Handles Sem Empty Empty) (h : Hosted Proc (Loc ⟨1, 6⟩) Unit) (e : KEvent) (m : Machine),
      h.machine.Step e m ∧ e.GetsThrough (ν.sem .procsCompleted) ∧
      (h.machine.kernel.sems (ν.sem (.molecules .no2))).count = 3 := by
  obtain ⟨ν, h, e, m, common, hr, hs, through⟩ := exists_returns
    (start_fresh : (start ⟨1, 6⟩).Fresh) asks (· = .procsCompleted) (by decide) (by decide)
    (by decide) (by decide)
    (List.replicate 2 (.inl .iN3) ++ List.replicate 7 (.inl .iH2O) ++ List.replicate 5 (.inr .r1) ++
      List.replicate 16 (.inr .r2) ++ List.replicate 10 (.inr .r3)) .procsCompleted
    (by decide)
  exact ⟨ν, h, e, m, hs, through, molecules_when_parent_returns
    ⟨by decide, by decide, by decide⟩ (by simp [common])
    (hr.weaken fun _ _ he => he.unsignalled _) hs through .no2⟩

end Q5

end DlxOs.Apps
