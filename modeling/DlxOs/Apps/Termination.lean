import DlxOs.Apps.Q2.Termination
import DlxOs.Apps.Q3.Termination
import DlxOs.Apps.Q4.Termination
import DlxOs.Kernel.Fairness

/-!
# The ring buffer programs come to their end on the kernel

If the scheduler passes over no child that has work to do, all children come to
their end, whatever else runs on the kernel: always with the lock alone, with
the semaphores for up to four pairs, and with the condition variables for as
many pairs as the process table holds.
-/

namespace DlxOs.Apps

open Monitors Kernel Transition

namespace Q2

variable {N : ℕ} {first : ℕ → Char} {ν : Handles Sem Lock Cond}
  {x : (hostedSystem (noted N) ν (begin N first)).Execution}

/-- In a fair execution all children come to their end, and all digits have gone through the
ring. -/
theorem lock_ring_comes_to_end (fair : FairTo x)
    (forked : ∃ n, ∀ p, (x.state n).place p ≠ .unborn) :
    ∃ n, (∀ p, noted N p ((x.state n).loc p) = .stop) ∧
      (∀ i, (x.state n).mem.2.insertedBy i = digits) ∧
      (∀ j, (x.state n).mem.2.removedBy j = digits) ∧ (x.state n).mem.2.unconsumed = [] := by
  obtain ⟨n, stopped⟩ := hosted_terminates begin_fresh quiet lets (fun _ => terminates) fair forked
  obtain ⟨σ, hσ, -⟩ := hosted_simulates begin_fresh quiet lets (x.reachable n)
  exact ⟨n, stopped, returns.all_moved (reachable_knows hσ) fun p => returns.of_stop (stopped p)⟩

/-- One pair on the kernel has a fair execution. -/
theorem lock_ring_comes_to_end_one_pair : ∃ (ν : Handles Sem Lock Cond)
    (x : (hostedSystem (noted 1) ν (begin 1 fun _ => 'x')).Execution),
    FairTo x ∧ ∃ n, (∀ p, noted 1 p ((x.state n).loc p) = .stop) ∧
      (∀ i, (x.state n).mem.2.insertedBy i = digits) ∧
      (∀ j, (x.state n).mem.2.removedBy j = digits) ∧ (x.state n).mem.2.unconsumed = [] := by
  obtain ⟨ν, x, -, fair, forked⟩ := exists_fairTo (π := noted 1)
    (begin_fresh : (begin 1 fun _ => 'x').Fresh) returns.asks
    (fun _ => terminates) (· = .procsCompleted) (by decide) (by decide) (by decide) (by decide)
  exact ⟨ν, x, fair, lock_ring_comes_to_end fair forked⟩

end Q2

namespace Q3

variable {N : ℕ} {ν : Handles Sem Lock Cond} {x : (hostedSystem (noted N) ν (begin N)).Execution}

/-- With at most four pairs, in a fair execution all children come to their end, and all digits have
gone through the ring. -/
theorem semaphore_ring_comes_to_end (hN : N ≤ 4) (common : ∀ s, ν.common s → s = .procsCompleted)
    (fair : FairTo x) (forked : ∃ n, ∀ p, (x.state n).place p ≠ .unborn) :
    ∃ n, (∀ p, noted N p ((x.state n).loc p) = .stop) ∧
      (∀ i, (x.state n).mem.2.insertedBy i = digits) ∧
      (∀ j, (x.state n).mem.2.removedBy j = digits) ∧ (x.state n).mem.2.unconsumed = [] := by
  obtain ⟨n, stopped⟩ := hosted_terminates begin_fresh (quiet common) lets
    (fun _ => terminates hN) fair forked
  obtain ⟨σ, hσ, -⟩ := hosted_simulates begin_fresh (quiet common) lets (x.reachable n)
  exact ⟨n, stopped, returns.all_moved (reachable_knows hσ) fun p => returns.of_stop (stopped p)⟩

/-- One pair on the kernel has a fair execution. -/
theorem semaphore_ring_comes_to_end_one_pair : ∃ (ν : Handles Sem Lock Cond)
    (x : (hostedSystem (noted 1) ν (begin 1)).Execution),
    FairTo x ∧ ∃ n, (∀ p, noted 1 p ((x.state n).loc p) = .stop) ∧
      (∀ i, (x.state n).mem.2.insertedBy i = digits) ∧
      (∀ j, (x.state n).mem.2.removedBy j = digits) ∧ (x.state n).mem.2.unconsumed = [] := by
  obtain ⟨ν, x, common, fair, forked⟩ := exists_fairTo (π := noted 1)
    (begin_fresh (N := 1)) returns.asks
    (fun _ => terminates (by decide)) (· = .procsCompleted) (by decide) (by decide) (by decide)
    (by decide)
  exact ⟨ν, x, fair, semaphore_ring_comes_to_end (by decide) (by simp [common]) fair forked⟩

end Q3

namespace Q4

variable {N : ℕ} {ν : Handles Sem Lock Cond} {x : (hostedSystem (noted N) ν (begin N)).Execution}

/-- With at most fifteen pairs, in a fair execution all children come to their end, and all digits
have gone through the ring. -/
theorem cond_ring_comes_to_end (hN : N ≤ 15) (fair : FairTo x)
    (forked : ∃ n, ∀ p, (x.state n).place p ≠ .unborn) :
    ∃ n, (∀ p, noted N p ((x.state n).loc p) = .stop) ∧
      (∀ i, (x.state n).mem.2.insertedBy i = digits) ∧
      (∀ j, (x.state n).mem.2.removedBy j = digits) ∧ (x.state n).mem.2.unconsumed = [] := by
  obtain ⟨n, stopped⟩ := hosted_terminates begin_fresh quiet lets (fun _ => terminates hN) fair
    forked
  obtain ⟨σ, hσ, -⟩ := hosted_simulates begin_fresh quiet lets (x.reachable n)
  exact ⟨n, stopped, returns.all_moved (reachable_knows hσ) fun p => returns.of_stop (stopped p)⟩

/-- One pair on the kernel has a fair execution. -/
theorem cond_ring_comes_to_end_one_pair : ∃ (ν : Handles Sem Lock Cond)
    (x : (hostedSystem (noted 1) ν (begin 1)).Execution),
    FairTo x ∧ ∃ n, (∀ p, noted 1 p ((x.state n).loc p) = .stop) ∧
      (∀ i, (x.state n).mem.2.insertedBy i = digits) ∧
      (∀ j, (x.state n).mem.2.removedBy j = digits) ∧ (x.state n).mem.2.unconsumed = [] := by
  obtain ⟨ν, x, -, fair, forked⟩ := exists_fairTo (π := noted 1)
    (begin_fresh (N := 1)) returns.asks
    (fun _ => terminates (by decide)) (· = .procsCompleted) (by decide) (by decide) (by decide)
    (by decide)
  exact ⟨ν, x, fair, cond_ring_comes_to_end (by decide) fair forked⟩

end Q4

end DlxOs.Apps
