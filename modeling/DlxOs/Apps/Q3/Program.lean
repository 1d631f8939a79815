import DlxOs.Apps.Children
import DlxOs.Library.Balance
import DlxOs.Library.Outlines

/-!
# The ring buffer with semaphores

The producers and consumers of `apps/q3`. A producer waits for an empty slot
before it takes the lock. A consumer takes the lock, looks at the head slot,
and waits for a full slot only when it finds the item that it expects there.
-/

namespace DlxOs.Apps.Q3

open Monitors

/-- `s_procs_completed`, and the two semaphores in the shared page -/
inductive Sem
  | procsCompleted
  | fullslots
  | emptyslots
  deriving DecidableEq

inductive Lock
  | lock
  deriving DecidableEq

abbrev Cond := Empty

/-- Where a producer is in its loop. -/
inductive ProducerPc
  | waitEmptySlot
  | lockAcquire
  | store
  | lockRelease
  | signalFullSlot
  | signalCompleted
  | finished
  deriving DecidableEq

/-- Where a consumer is in its loop. -/
inductive ConsumerPc
  | lockAcquire
  | test
  | waitFullSlot
  | remove
  | lockRelease
  | signalEmptySlot
  | lockReleaseElse
  | signalCompleted
  | finished
  deriving DecidableEq

abbrev Producer := Apps.Producer ProducerPc

abbrev Consumer := Apps.Consumer ConsumerPc

/-- The head of the loop. -/
def Producer.head (l : Producer) : Producer := l.loop .waitEmptySlot .signalCompleted

def Consumer.head (l : Consumer) : Consumer := l.loop .lockAcquire .signalCompleted

@[simp] theorem Producer.head_pDepot (l : Producer) : (head l).pDepot = l.pDepot :=
  Producer.loop_pDepot ..

@[simp] theorem Consumer.head_cDepot (l : Consumer) : (head l).cDepot = l.cDepot :=
  Consumer.loop_cDepot ..

def Producer.action {N : ℕ} (l : Producer) :
    Action (Child N) Sem Lock Cond Producer SharedBuffer :=
  match l.pc with
  | .waitEmptySlot => .call (.semWait .emptyslots) { l with pc := .lockAcquire }
  | .lockAcquire => .call (.acquire .lock) { l with pc := .store }
  | .store => .compute fun buf => ({ l with pc := .lockRelease }, buf.store l.product)
  | .lockRelease => .call (.release .lock) { l with pc := .signalFullSlot }
  | .signalFullSlot => .call (.semSignal .fullslots) (head { l with pDepot := l.pDepot.advance })
  | .signalCompleted => .call (.semSignal .procsCompleted) { l with pc := .finished }
  | .finished => .stop

def Consumer.action {N : ℕ} (l : Consumer) :
    Action (Child N) Sem Lock Cond Consumer SharedBuffer :=
  match l.pc with
  | .lockAcquire => .call (.acquire .lock) { l with pc := .test }
  | .test => .compute fun buf =>
      ({ l with pc := if buf.head = l.expectedItem then .waitFullSlot else .lockReleaseElse }, buf)
  | .waitFullSlot => .call (.semWait .fullslots) { l with pc := .remove }
  | .remove => .compute fun buf =>
      ({ l with product := buf.head, pc := .lockRelease }, buf.advance)
  | .lockRelease => .call (.release .lock) { l with pc := .signalEmptySlot }
  | .signalEmptySlot => .call (.semSignal .emptyslots)
      (head { l with cDepot := (l.cDepot.put l.product).advance })
  | .lockReleaseElse => .call (.release .lock) (head l)
  | .signalCompleted => .call (.semSignal .procsCompleted) { l with pc := .finished }
  | .finished => .stop

abbrev Loc (N : ℕ) := Apps.Loc N ProducerPc ConsumerPc

/-- The programs of the children. -/
def program (N : ℕ) : Program (Child N) Sem Lock Cond (Loc N) SharedBuffer
  | .inl _, l => Producer.action l
  | .inr _, l => Consumer.action l

/-- The semaphores as `makeprocs` creates them. -/
def count (N : ℕ) : Sem → ℤ
  | .procsCompleted => -(2 * N - 1)
  | .fullslots => 0
  | .emptyslots => bufferSize

def startLoc (N : ℕ) : (p : Child N) → Loc N p
  | .inl _ => Producer.head ⟨.finished, .full, nul⟩
  | .inr _ => Consumer.head ⟨.finished, .empty, nul, '0'⟩

/-- A session in which nobody waits. -/
def calm {N : ℕ} (count : Sem → ℤ) (owner : Option (Child N)) :
    Session (Child N) Sem Lock Cond :=
  ⟨⟨fun _ => [], count, fun _ => owner, fun _ => .lock⟩, fun _ => none, fun _ => true⟩

/-- The children at their start: `makeprocs` has created the lock and the semaphores and has set up
the page. -/
def start (N : ℕ) : Threads (Child N) Sem Lock Cond (Loc N) SharedBuffer :=
  ⟨calm (count N) none, startLoc N, .zero⟩

/-- Where the items are stored and removed. -/
def places : Places ProducerPc ConsumerPc where
  stores pc := pc = .store
  stored pc := pc = .lockRelease ∨ pc = .signalFullSlot
  busy pc := pc ≠ .signalCompleted ∧ pc ≠ .finished
  removes pc := pc = .remove
  taken pc := pc = .lockRelease ∨ pc = .signalEmptySlot
  seeks pc := pc ≠ .signalCompleted ∧ pc ≠ .finished
  done pc := pc = .signalCompleted ∨ pc = .finished

abbrev State (N : ℕ) := Threads (Child N) Sem Lock Cond (Loc N) (SharedBuffer × Record N)

/-- The children, with a record of the items beside the page. -/
def noted (N : ℕ) : Program (Child N) Sem Lock Cond (Loc N) (SharedBuffer × Record N) :=
  (program N).noted places.note

def begin (N : ℕ) : State N := (start N).noting (.new N)

/-- The runs of the children. -/
abbrev system (N : ℕ) : Transition.System (State N) (Child N) := (noted N).system (begin N)

namespace State

variable {N : ℕ}

abbrev buf (s : State N) : SharedBuffer := s.mem.1

abbrev record (s : State N) : Record N := s.mem.2

abbrev producerAt (s : State N) (i : Fin N) : Producer := s.loc (.inl i)

abbrev consumerAt (s : State N) (j : Fin N) : Consumer := s.loc (.inr j)

end State

/-- The places between `lock_acquire` and `lock_release`. -/
def ProducerPc.inside : ProducerPc → Bool
  | .store => true
  | .lockRelease => true
  | _ => false

def ConsumerPc.inside : ConsumerPc → Bool
  | .test => true
  | .waitFullSlot => true
  | .remove => true
  | .lockRelease => true
  | .lockReleaseElse => true
  | _ => false

/-- The local states in which a child has the lock. -/
def holds {N : ℕ} : (p : Child N) → Loc N p → Prop
  | .inl _, l => l.pc.inside
  | .inr _, l => l.pc.inside

variable {N : ℕ}

theorem begin_fresh : (begin N).Fresh := ⟨fun _ => rfl, fun _ => rfl, fun _ => rfl, fun _ => rfl⟩

theorem begin_outside (p : Child N) : ¬ holds p ((begin N).loc p) := by
  cases p with
  | inl i => exact Bool.false_ne_true
  | inr j => exact Bool.false_ne_true

theorem Producer.head_outside (l : Producer) : (head l).pc.inside = false :=
  l.loop_at ProducerPc.inside .waitEmptySlot .signalCompleted rfl rfl

theorem Consumer.head_outside (l : Consumer) : (head l).pc.inside = false :=
  l.loop_at ConsumerPc.inside .lockAcquire .signalCompleted rfl rfl

/-- The children use the lock in a disciplined way. -/
theorem disciplined : (noted N).Disciplined .lock holds := by
  intro p l
  cases p with
  | inl i =>
      obtain ⟨pc, d, c⟩ := l
      cases pc with
      | store => exact fun x => ⟨Iff.rfl, .inl rfl⟩
      | signalFullSlot =>
          exact iff_of_false (by simp [holds, Producer.head_outside]) Bool.false_ne_true
      | _ => simp [noted, Program.noted, program, Producer.action, Action.Obeys, holds,
          ProducerPc.inside]
  | inr j =>
      obtain ⟨pc, d, c, e⟩ := l
      cases pc with
      | test =>
          intro x
          refine ⟨?_, .inl rfl⟩
          change ConsumerPc.inside (ite _ _ _) = true ↔ _
          split <;> exact Iff.rfl
      | remove => exact fun x => ⟨Iff.rfl, .inl rfl⟩
      | signalEmptySlot =>
          exact iff_of_false (by simp [holds, Consumer.head_outside]) Bool.false_ne_true
      | lockReleaseElse =>
          exact ⟨rfl, rfl, by simp [holds, Consumer.head_outside]⟩
      | _ => simp [noted, Program.noted, program, Consumer.action, Action.Obeys, holds,
          ConsumerPc.inside]

end DlxOs.Apps.Q3
