import DlxOs.Apps.Children
import DlxOs.Library.Outlines

/-!
# The ring buffer with condition variables

The producers and consumers of `apps/q4`. Both test the ring once under the
lock and wait at most once; a consumer that finds another item than the one it
expects lets the lock go and starts again.
-/

namespace DlxOs.Apps.Q4

open Monitors

/-- `s_procs_completed` -/
inductive Sem
  | procsCompleted
  deriving DecidableEq

inductive Lock
  | lock
  deriving DecidableEq

inductive Cond
  | notFull
  | notEmpty
  deriving DecidableEq

/-- Where a producer is in its loop. -/
inductive ProducerPc
  | lockAcquire
  | test
  | waitNotFull
  | store
  | signalNotEmpty
  | lockRelease
  | signalCompleted
  | finished
  deriving DecidableEq

/-- Where a consumer is in its loop. -/
inductive ConsumerPc
  | lockAcquire
  | test
  | waitNotEmpty
  | look
  | remove
  | signalNotFull
  | lockRelease
  | signalCompleted
  | finished
  deriving DecidableEq

abbrev Producer := Apps.Producer ProducerPc

abbrev Consumer := Apps.Consumer ConsumerPc

/-- The head of the loop. -/
def Producer.head (l : Producer) : Producer := l.loop .lockAcquire .signalCompleted

def Consumer.head (l : Consumer) : Consumer := l.loop .lockAcquire .signalCompleted

def Producer.action {N : ℕ} (l : Producer) :
    Action (Child N) Sem Lock Cond Producer SharedBuffer :=
  match l.pc with
  | .lockAcquire => .call (.acquire .lock) { l with pc := .test }
  | .test => .compute fun buf =>
      ({ l with pc := if (buf.wIdx + 1) % bufferSize = buf.rIdx then .waitNotFull else .store }, buf)
  | .waitNotFull => .call (.wait .notFull) { l with pc := .store }
  | .store => .compute fun buf => ({ l with pc := .signalNotEmpty }, buf.store l.product)
  | .signalNotEmpty => .call (.signal .notEmpty) { l with pc := .lockRelease }
  | .lockRelease => .call (.release .lock) (head { l with pDepot := l.pDepot.advance })
  | .signalCompleted => .call (.semSignal .procsCompleted) { l with pc := .finished }
  | .finished => .stop

def Consumer.action {N : ℕ} (l : Consumer) :
    Action (Child N) Sem Lock Cond Consumer SharedBuffer :=
  match l.pc with
  | .lockAcquire => .call (.acquire .lock) { l with pc := .test }
  | .test => .compute fun buf =>
      ({ l with pc := if buf.wIdx = buf.rIdx then .waitNotEmpty else .look }, buf)
  | .waitNotEmpty => .call (.wait .notEmpty) { l with pc := .look }
  | .look => .compute fun buf =>
      ({ l with pc := if buf.head ≠ l.expectedItem then .lockRelease else .remove }, buf)
  | .remove => .compute fun buf =>
      ({ l with product := buf.head, pc := .signalNotFull }, buf.advance)
  | .signalNotFull => .call (.signal .notFull)
      { l with cDepot := (l.cDepot.put l.product).advance, pc := .lockRelease }
  | .lockRelease => .call (.release .lock) (head l)
  | .signalCompleted => .call (.semSignal .procsCompleted) { l with pc := .finished }
  | .finished => .stop

/-- A child has stopped when its `main` has returned. -/
theorem Producer.stop_iff {N : ℕ} {l : Producer} :
    l.action (N := N) = .stop ↔ l.pc = .finished := by
  obtain ⟨pc, d, c⟩ := l
  cases pc <;> simp [action]

theorem Consumer.stop_iff {N : ℕ} {l : Consumer} :
    l.action (N := N) = .stop ↔ l.pc = .finished := by
  obtain ⟨pc, d, c, x⟩ := l
  cases pc <;> simp [action]

abbrev Loc (N : ℕ) := Apps.Loc N ProducerPc ConsumerPc

/-- The programs of the children. -/
def program (N : ℕ) : Program (Child N) Sem Lock Cond (Loc N) SharedBuffer
  | .inl _, l => Producer.action l
  | .inr _, l => Consumer.action l

/-- The children at their start: `makeprocs` has created the lock, both condition variables on it
and the semaphore, and has set up the page. -/
def start (N : ℕ) : Threads (Child N) Sem Lock Cond (Loc N) SharedBuffer where
  session := ⟨⟨fun _ => [], fun _ => -(2 * N - 1), fun _ => none, fun _ => .lock⟩,
    fun _ => none, fun _ => true⟩
  loc
    | .inl _ => Producer.head ⟨.finished, .full, nul⟩
    | .inr _ => Consumer.head ⟨.finished, .empty, nul, '0'⟩
  mem := .zero

/-- Where the items are stored and removed. -/
def places : Places ProducerPc ConsumerPc where
  stores pc := pc = .store
  stored pc := pc = .signalNotEmpty ∨ pc = .lockRelease
  busy pc := pc ≠ .signalCompleted ∧ pc ≠ .finished
  removes pc := pc = .remove
  taken pc := pc = .signalNotFull
  seeks pc := pc ≠ .lockRelease ∧ pc ≠ .signalCompleted ∧ pc ≠ .finished
  done pc := pc = .signalCompleted ∨ pc = .finished

abbrev State (N : ℕ) := Threads (Child N) Sem Lock Cond (Loc N) (SharedBuffer × Record N)

/-- The children, with a record of the items beside the page. -/
def noted (N : ℕ) : Program (Child N) Sem Lock Cond (Loc N) (SharedBuffer × Record N) :=
  (program N).noted places.note

def begin (N : ℕ) : State N := (start N).noting (.new N)

/-- The runs of the children. -/
abbrev system (N : ℕ) : Transition.System (State N) (Child N) := (noted N).system (begin N)

namespace State

variable {N : ℕ}

abbrev buf (s : State N) : SharedBuffer := s.mem.1

abbrev record (s : State N) : Record N := s.mem.2

abbrev producerAt (s : State N) (i : Fin N) : Producer := s.loc (.inl i)

abbrev consumerAt (s : State N) (j : Fin N) : Consumer := s.loc (.inr j)

end State

/-- The places between `lock_acquire` and `lock_release`. -/
def ProducerPc.inside : ProducerPc → Bool
  | .lockAcquire => false
  | .signalCompleted => false
  | .finished => false
  | _ => true

def ConsumerPc.inside : ConsumerPc → Bool
  | .lockAcquire => false
  | .signalCompleted => false
  | .finished => false
  | _ => true

/-- The local states in which a child has the lock. -/
def holds {N : ℕ} : (p : Child N) → Loc N p → Prop
  | .inl _, l => l.pc.inside
  | .inr _, l => l.pc.inside

variable {N : ℕ}

theorem begin_fresh : (begin N).Fresh := ⟨fun _ => rfl, fun _ => rfl, fun _ => rfl, fun _ => rfl⟩

theorem begin_outside (p : Child N) : ¬ holds p ((begin N).loc p) := by
  cases p with
  | inl i => exact Bool.false_ne_true
  | inr j => exact Bool.false_ne_true

theorem Producer.head_outside (l : Producer) : (head l).pc.inside = false :=
  l.loop_at ProducerPc.inside .lockAcquire .signalCompleted rfl rfl

theorem Consumer.head_outside (l : Consumer) : (head l).pc.inside = false :=
  l.loop_at ConsumerPc.inside .lockAcquire .signalCompleted rfl rfl

/-- The children use the lock in a disciplined way. -/
theorem disciplined : (noted N).Disciplined .lock holds := by
  intro p l
  cases p with
  | inl i =>
      obtain ⟨pc, d, c⟩ := l
      cases pc with
      | test =>
          intro x
          refine ⟨?_, .inl rfl⟩
          change ProducerPc.inside (ite _ _ _) = true ↔ _
          split <;> exact Iff.rfl
      | lockRelease =>
          exact ⟨rfl, rfl, by simp [holds, Producer.head_outside]⟩
      | store => exact fun x => ⟨Iff.rfl, .inl rfl⟩
      | _ => simp [noted, Program.noted, program, Producer.action, Action.Obeys, holds,
          ProducerPc.inside]
  | inr j =>
      obtain ⟨pc, d, c, e⟩ := l
      cases pc with
      | test =>
          intro x
          refine ⟨?_, .inl rfl⟩
          change ConsumerPc.inside (ite _ _ _) = true ↔ _
          split <;> exact Iff.rfl
      | look =>
          intro x
          refine ⟨?_, .inl rfl⟩
          change ConsumerPc.inside (ite _ _ _) = true ↔ _
          split <;> exact Iff.rfl
      | lockRelease =>
          exact ⟨rfl, rfl, by simp [holds, Consumer.head_outside]⟩
      | remove => exact fun x => ⟨Iff.rfl, .inl rfl⟩
      | _ => simp [noted, Program.noted, program, Consumer.action, Action.Obeys, holds,
          ConsumerPc.inside]

end DlxOs.Apps.Q4
