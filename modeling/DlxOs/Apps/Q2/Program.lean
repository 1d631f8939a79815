import DlxOs.Apps.Children
import DlxOs.Library.Outlines

/-!
# The ring buffer with a lock

The producers and consumers of `apps/q2`. They wait for nothing: who finds the
ring full or empty, or another item than the one it expects, lets the lock go
and tries again. `makeprocs` leaves the page as it finds it.
-/

namespace DlxOs.Apps.Q2

open Monitors

/-- `s_procs_completed` -/
inductive Sem
  | procsCompleted
  deriving DecidableEq

inductive Lock
  | lock
  deriving DecidableEq

abbrev Cond := Empty

/-- Where a producer is in its loop. -/
inductive ProducerPc
  | lockAcquire
  | test
  | lockReleaseFull
  | store
  | lockRelease
  | signalCompleted
  | finished
  deriving DecidableEq

/-- Where a consumer is in its loop. -/
inductive ConsumerPc
  | lockAcquire
  | test
  | lockReleaseEmpty
  | look
  | remove
  | lockRelease
  | lockReleaseElse
  | signalCompleted
  | finished
  deriving DecidableEq

abbrev Producer := Apps.Producer ProducerPc

abbrev Consumer := Apps.Consumer ConsumerPc

/-- The head of the loop. -/
def Producer.head (l : Producer) : Producer := l.loop .lockAcquire .signalCompleted

def Consumer.head (l : Consumer) : Consumer := l.loop .lockAcquire .signalCompleted

def Producer.action {N : ℕ} (l : Producer) :
    Action (Child N) Sem Lock Cond Producer SharedBuffer :=
  match l.pc with
  | .lockAcquire => .call (.acquire .lock) { l with pc := .test }
  | .test => .compute fun buf =>
      ({ l with
        pc := if (buf.wIdx + 1) % bufferSize = buf.rIdx then .lockReleaseFull else .store }, buf)
  | .lockReleaseFull => .call (.release .lock) (head l)
  | .store => .compute fun buf => ({ l with pc := .lockRelease }, buf.store l.product)
  | .lockRelease => .call (.release .lock) (head { l with pDepot := l.pDepot.advance })
  | .signalCompleted => .call (.semSignal .procsCompleted) { l with pc := .finished }
  | .finished => .stop

def Consumer.action {N : ℕ} (l : Consumer) :
    Action (Child N) Sem Lock Cond Consumer SharedBuffer :=
  match l.pc with
  | .lockAcquire => .call (.acquire .lock) { l with pc := .test }
  | .test => .compute fun buf =>
      ({ l with pc := if buf.wIdx = buf.rIdx then .lockReleaseEmpty else .look }, buf)
  | .lockReleaseEmpty => .call (.release .lock) (head l)
  | .look => .compute fun buf =>
      ({ l with pc := if buf.head = l.expectedItem then .remove else .lockReleaseElse }, buf)
  | .remove => .compute fun buf =>
      ({ l with product := buf.head, pc := .lockRelease }, buf.advance)
  | .lockRelease => .call (.release .lock)
      (head { l with cDepot := (l.cDepot.put l.product).advance })
  | .lockReleaseElse => .call (.release .lock) (head l)
  | .signalCompleted => .call (.semSignal .procsCompleted) { l with pc := .finished }
  | .finished => .stop

/-- A child has stopped when its `main` has returned. -/
theorem Producer.stop_iff {N : ℕ} {l : Producer} :
    l.action (N := N) = .stop ↔ l.pc = .finished := by
  obtain ⟨pc, d, c⟩ := l
  cases pc <;> simp [action]

theorem Consumer.stop_iff {N : ℕ} {l : Consumer} :
    l.action (N := N) = .stop ↔ l.pc = .finished := by
  obtain ⟨pc, d, c, x⟩ := l
  cases pc <;> simp [action]

abbrev Loc (N : ℕ) := Apps.Loc N ProducerPc ConsumerPc

/-- The programs of the children. -/
def program (N : ℕ) : Program (Child N) Sem Lock Cond (Loc N) SharedBuffer
  | .inl _, l => Producer.action l
  | .inr _, l => Consumer.action l

/-- The children at their start: `makeprocs` has created the lock and the semaphore. The indices in
the page are zero and its slots hold anything. -/
def start (N : ℕ) (first : ℕ → Char) : Threads (Child N) Sem Lock Cond (Loc N) SharedBuffer where
  session := ⟨⟨fun _ => [], fun _ => -(2 * N - 1), fun _ => none, fun _ => .lock⟩,
    fun _ => none, fun _ => true⟩
  loc
    | .inl _ => Producer.head ⟨.finished, .full, nul⟩
    | .inr _ => Consumer.head ⟨.finished, .empty, nul, '0'⟩
  mem := ⟨0, 0, first⟩

/-- Where the items are stored and removed. -/
def places : Places ProducerPc ConsumerPc where
  stores pc := pc = .store
  stored pc := pc = .lockRelease
  busy pc := pc ≠ .signalCompleted ∧ pc ≠ .finished
  removes pc := pc = .remove
  taken pc := pc = .lockRelease
  seeks pc := pc ≠ .signalCompleted ∧ pc ≠ .finished
  done pc := pc = .signalCompleted ∨ pc = .finished

abbrev State (N : ℕ) := Threads (Child N) Sem Lock Cond (Loc N) (SharedBuffer × Record N)

/-- The children, with a record of the items beside the page. -/
def noted (N : ℕ) : Program (Child N) Sem Lock Cond (Loc N) (SharedBuffer × Record N) :=
  (program N).noted places.note

def begin (N : ℕ) (first : ℕ → Char) : State N := (start N first).noting (.new N)

/-- The runs of the children. -/
abbrev system (N : ℕ) (first : ℕ → Char) : Transition.System (State N) (Child N) :=
  (noted N).system (begin N first)

namespace State

variable {N : ℕ}

abbrev buf (s : State N) : SharedBuffer := s.mem.1

abbrev record (s : State N) : Record N := s.mem.2

abbrev producerAt (s : State N) (i : Fin N) : Producer := s.loc (.inl i)

abbrev consumerAt (s : State N) (j : Fin N) : Consumer := s.loc (.inr j)

end State

/-- The places between `lock_acquire` and `lock_release`. -/
def ProducerPc.inside : ProducerPc → Bool
  | .lockAcquire => false
  | .signalCompleted => false
  | .finished => false
  | _ => true

def ConsumerPc.inside : ConsumerPc → Bool
  | .lockAcquire => false
  | .signalCompleted => false
  | .finished => false
  | _ => true

/-- The local states in which a child has the lock. -/
def holds {N : ℕ} : (p : Child N) → Loc N p → Prop
  | .inl _, l => l.pc.inside
  | .inr _, l => l.pc.inside

variable {N : ℕ} {first : ℕ → Char}

theorem begin_fresh : (begin N first).Fresh :=
  ⟨fun _ => rfl, fun _ => rfl, fun _ => rfl, fun _ => rfl⟩

theorem begin_outside (p : Child N) : ¬ holds p ((begin N first).loc p) := by
  cases p with
  | inl i => exact Bool.false_ne_true
  | inr j => exact Bool.false_ne_true

theorem Producer.head_outside (l : Producer) : (head l).pc.inside = false :=
  l.loop_at ProducerPc.inside .lockAcquire .signalCompleted rfl rfl

theorem Consumer.head_outside (l : Consumer) : (head l).pc.inside = false :=
  l.loop_at ConsumerPc.inside .lockAcquire .signalCompleted rfl rfl

/-- The children use the lock in a disciplined way. -/
theorem disciplined : (noted N).Disciplined .lock holds := by
  intro p l
  cases p with
  | inl i =>
      obtain ⟨pc, d, c⟩ := l
      cases pc with
      | test =>
          intro x
          refine ⟨?_, .inl rfl⟩
          change ProducerPc.inside (ite _ _ _) = true ↔ _
          split <;> exact Iff.rfl
      | store => exact fun x => ⟨Iff.rfl, .inl rfl⟩
      | lockReleaseFull => exact ⟨rfl, rfl, by simp [holds, Producer.head_outside]⟩
      | lockRelease => exact ⟨rfl, rfl, by simp [holds, Producer.head_outside]⟩
      | lockAcquire => exact ⟨rfl, Bool.false_ne_true, rfl⟩
      | signalCompleted => exact Iff.rfl
      | finished => trivial
  | inr j =>
      obtain ⟨pc, d, c, e⟩ := l
      cases pc with
      | test =>
          intro x
          refine ⟨?_, .inl rfl⟩
          change ConsumerPc.inside (ite _ _ _) = true ↔ _
          split <;> exact Iff.rfl
      | look =>
          intro x
          refine ⟨?_, .inl rfl⟩
          change ConsumerPc.inside (ite _ _ _) = true ↔ _
          split <;> exact Iff.rfl
      | remove => exact fun x => ⟨Iff.rfl, .inl rfl⟩
      | lockReleaseEmpty => exact ⟨rfl, rfl, by simp [holds, Consumer.head_outside]⟩
      | lockRelease => exact ⟨rfl, rfl, by simp [holds, Consumer.head_outside]⟩
      | lockReleaseElse => exact ⟨rfl, rfl, by simp [holds, Consumer.head_outside]⟩
      | lockAcquire => exact ⟨rfl, Bool.false_ne_true, rfl⟩
      | signalCompleted => exact Iff.rfl
      | finished => trivial

end DlxOs.Apps.Q2
