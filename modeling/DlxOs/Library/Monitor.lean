import Mathlib.Data.List.Basic
import Mathlib.Data.List.Nodup
import Mathlib.Logic.Function.Basic
import Mathlib.Tactic.Common

/-!
# First-come first-served monitors with hand-off

Processes wait in queues at semaphores, locks and condition variables. A lock
that is released with processes waiting for it is handed to the first of them.
A signal hands the lock of the condition variable to the process it wakes, and
the signaller queues for the lock.

## Implementation notes

`Monitor.call` computes a call up to the point where it returns or blocks.
`CallCase` lists its branches; all facts about a call are derived from it.
-/

namespace DlxOs.Monitors

/-- The places where a process can wait. -/
inductive WaitPoint (S L C : Type*)
  | sem (s : S)
  | lock (k : L)
  | cond (c : C)
  deriving DecidableEq

/-- The queues, counts and owners of a system of semaphores, locks and condition variables. -/
structure Monitor (P S L C : Type*) where
  waiting : WaitPoint S L C → List P
  count : S → Int
  owner : L → Option P
  bound : C → L

/-- The operations a process calls. -/
inductive Call (P S L C : Type*)
  | semWait (s : S)
  | semSignal (s : S)
  | acquire (k : L)
  | release (k : L)
  | transfer (k : L) (q : P)
  | wait (c : C)
  | signal (c : C)
  deriving DecidableEq

/-- A call sleeps at once or returns at once, successful or refused. -/
inductive Outcome
  | blocked
  | returned (ok : Bool)
  deriving DecidableEq

variable {P S L C : Type*} [DecidableEq P] [DecidableEq S] [DecidableEq L] [DecidableEq C]

namespace Monitor

def setWaiting (m : Monitor P S L C) (w : WaitPoint S L C) (ps : List P) : Monitor P S L C :=
  { m with waiting := Function.update m.waiting w ps }

def setCount (m : Monitor P S L C) (s : S) (n : Int) : Monitor P S L C :=
  { m with count := Function.update m.count s n }

def setOwner (m : Monitor P S L C) (k : L) (o : Option P) : Monitor P S L C :=
  { m with owner := Function.update m.owner k o }

def enqueue (m : Monitor P S L C) (w : WaitPoint S L C) (p : P) : Monitor P S L C :=
  m.setWaiting w (m.waiting w ++ [p])

/-- The lock goes to the process that waited longest, or becomes free. -/
def handOver (m : Monitor P S L C) (k : L) : Monitor P S L C :=
  match m.waiting (.lock k) with
  | [] => m.setOwner k none
  | q :: rest => (m.setWaiting (.lock k) rest).setOwner k (some q)

/-- One call of process `p`, up to its return or its sleep. -/
def call (m : Monitor P S L C) (p : P) : Call P S L C → Outcome × Monitor P S L C
  | .semWait s =>
    if m.count s ≤ 0 then (.blocked, m.enqueue (.sem s) p)
    else (.returned true, m.setCount s (m.count s - 1))
  | .semSignal s =>
    match m.waiting (.sem s) with
    | [] => (.returned true, m.setCount s (m.count s + 1))
    | _ :: rest =>
      if 0 < m.count s + 1 then (.returned true, m.setWaiting (.sem s) rest)
      else (.returned true, m.setCount s (m.count s + 1))
  | .acquire k =>
    if m.owner k = some p then (.returned true, m)
    else if (m.owner k).isSome then (.blocked, m.enqueue (.lock k) p)
    else (.returned true, m.setOwner k (some p))
  | .release k => if m.owner k = some p then (.returned true, m.handOver k) else (.returned false, m)
  | .transfer k q =>
    if m.owner k = some p then
      (.returned true, (m.setOwner k (some q)).setWaiting (.lock k) ((m.waiting (.lock k)).erase q))
    else (.returned false, m)
  | .wait c =>
    if m.owner (m.bound c) = some p then
      (.blocked, (m.enqueue (.cond c) p).handOver (m.bound c))
    else (.returned false, m)
  | .signal c =>
    if m.owner (m.bound c) = some p then
      match m.waiting (.cond c) with
      | [] => (.returned true, m)
      | q :: rest =>
        (.blocked, ((m.setWaiting (.cond c) rest).setOwner (m.bound c) (some q)).enqueue
          (.lock (m.bound c)) p)
    else (.returned false, m)

/-- Where a call sleeps if it sleeps. -/
def point (m : Monitor P S L C) : Call P S L C → Option (WaitPoint S L C)
  | .semWait s => some (.sem s)
  | .acquire k => some (.lock k)
  | .wait c => some (.cond c)
  | .signal c => some (.lock (m.bound c))
  | _ => none

/-- The lock a process owns when it returns from the call after a sleep. -/
def granted (m : Monitor P S L C) : Call P S L C → Option L
  | .acquire k => some k
  | .wait c => some (m.bound c)
  | .signal c => some (m.bound c)
  | _ => none

/-- The lock that the process woken from a place has been handed. -/
def handed (m : Monitor P S L C) : WaitPoint S L C → Option L
  | .sem _ => none
  | .lock k => some k
  | .cond c => some (m.bound c)

section Lemmas

omit [DecidableEq P] [DecidableEq S] [DecidableEq L] [DecidableEq C]

variable (m : Monitor P S L C) (w v : WaitPoint S L C) (ps : List P) (k j : L) (o : Option P)
  (s : S) (n : Int) (p : P) (c : C)

section
variable [DecidableEq S] [DecidableEq L] [DecidableEq C]

@[simp] theorem setWaiting_self : (m.setWaiting w ps).waiting w = ps := Function.update_self ..

theorem setWaiting_of_ne (h : v ≠ w) : (m.setWaiting w ps).waiting v = m.waiting v :=
  Function.update_of_ne h ..

@[simp] theorem setWaiting_count : (m.setWaiting w ps).count = m.count := rfl
@[simp] theorem setWaiting_owner : (m.setWaiting w ps).owner = m.owner := rfl
@[simp] theorem setWaiting_bound : (m.setWaiting w ps).bound = m.bound := rfl

@[simp] theorem enqueue_self : (m.enqueue w p).waiting w = m.waiting w ++ [p] :=
  Function.update_self ..

theorem enqueue_of_ne (h : v ≠ w) : (m.enqueue w p).waiting v = m.waiting v :=
  Function.update_of_ne h ..

@[simp] theorem enqueue_count : (m.enqueue w p).count = m.count := rfl
@[simp] theorem enqueue_owner : (m.enqueue w p).owner = m.owner := rfl
@[simp] theorem enqueue_bound : (m.enqueue w p).bound = m.bound := rfl

end

@[simp] theorem setCount_waiting [DecidableEq S] : (m.setCount s n).waiting = m.waiting := rfl
@[simp] theorem setCount_owner [DecidableEq S] : (m.setCount s n).owner = m.owner := rfl
@[simp] theorem setCount_bound [DecidableEq S] : (m.setCount s n).bound = m.bound := rfl

@[simp] theorem setCount_self [DecidableEq S] : (m.setCount s n).count s = n :=
  Function.update_self ..

theorem setCount_of_ne [DecidableEq S] {t : S} (h : t ≠ s) : (m.setCount s n).count t = m.count t :=
  Function.update_of_ne h ..

variable [DecidableEq L]

@[simp] theorem setOwner_waiting : (m.setOwner k o).waiting = m.waiting := rfl
@[simp] theorem setOwner_count : (m.setOwner k o).count = m.count := rfl
@[simp] theorem setOwner_bound : (m.setOwner k o).bound = m.bound := rfl
@[simp] theorem setOwner_self : (m.setOwner k o).owner k = o := Function.update_self ..

theorem setOwner_of_ne (h : j ≠ k) : (m.setOwner k o).owner j = m.owner j :=
  Function.update_of_ne h ..

end Lemmas

end Monitor

open Monitor

/-- The branches of a call. -/
inductive CallCase (m : Monitor P S L C) (p : P) :
    Call P S L C → Outcome → Monitor P S L C → Prop
  | semTake (s) (h : 0 < m.count s) :
      CallCase m p (.semWait s) (.returned true) (m.setCount s (m.count s - 1))
  | semSleep (s) (h : m.count s ≤ 0) :
      CallCase m p (.semWait s) .blocked (m.enqueue (.sem s) p)
  | semCount (s) (h : m.waiting (.sem s) = [] ∨ m.count s + 1 ≤ 0) :
      CallCase m p (.semSignal s) (.returned true) (m.setCount s (m.count s + 1))
  | semWake (s) {q rest} (h : 0 < m.count s + 1) (hq : m.waiting (.sem s) = q :: rest) :
      CallCase m p (.semSignal s) (.returned true) (m.setWaiting (.sem s) rest)
  | acquireOwned (k) (h : m.owner k = some p) : CallCase m p (.acquire k) (.returned true) m
  | acquireFree (k) (h : m.owner k = none) :
      CallCase m p (.acquire k) (.returned true) (m.setOwner k (some p))
  | acquireSleep (k) {o} (h : m.owner k = some o) (ho : o ≠ p) :
      CallCase m p (.acquire k) .blocked (m.enqueue (.lock k) p)
  | releaseRefused (k) (h : m.owner k ≠ some p) : CallCase m p (.release k) (.returned false) m
  | release (k) (h : m.owner k = some p) :
      CallCase m p (.release k) (.returned true) (m.handOver k)
  | transferRefused (k q) (h : m.owner k ≠ some p) :
      CallCase m p (.transfer k q) (.returned false) m
  | transfer (k q) (h : m.owner k = some p) :
      CallCase m p (.transfer k q) (.returned true)
        ((m.setOwner k (some q)).setWaiting (.lock k) ((m.waiting (.lock k)).erase q))
  | waitRefused (c) (h : m.owner (m.bound c) ≠ some p) :
      CallCase m p (.wait c) (.returned false) m
  | wait (c) (h : m.owner (m.bound c) = some p) :
      CallCase m p (.wait c) .blocked ((m.enqueue (.cond c) p).handOver (m.bound c))
  | signalRefused (c) (h : m.owner (m.bound c) ≠ some p) :
      CallCase m p (.signal c) (.returned false) m
  | signalNone (c) (h : m.owner (m.bound c) = some p) (hq : m.waiting (.cond c) = []) :
      CallCase m p (.signal c) (.returned true) m
  | signal (c) {q rest} (h : m.owner (m.bound c) = some p) (hq : m.waiting (.cond c) = q :: rest) :
      CallCase m p (.signal c) .blocked
        (((m.setWaiting (.cond c) rest).setOwner (m.bound c) (some q)).enqueue
          (.lock (m.bound c)) p)

/-- Every call takes one of the branches. -/
theorem call_cases (m : Monitor P S L C) (p : P) (c : Call P S L C) :
    CallCase m p c (m.call p c).1 (m.call p c).2 := by
  cases c with
  | semWait s =>
      by_cases h : m.count s ≤ 0
      · simpa only [Monitor.call, if_pos h] using CallCase.semSleep s h
      · simpa only [Monitor.call, if_neg h] using CallCase.semTake s (by omega)
  | semSignal s =>
      cases hq : m.waiting (.sem s) with
      | nil => simpa only [Monitor.call, hq] using CallCase.semCount s (.inl hq)
      | cons q rest =>
          by_cases h : 0 < m.count s + 1
          · simpa only [Monitor.call, hq, if_pos h] using CallCase.semWake s h hq
          · simpa only [Monitor.call, hq, if_neg h] using CallCase.semCount s (.inr (by omega))
  | acquire k =>
      by_cases h : m.owner k = some p
      · simpa only [Monitor.call, if_pos h] using CallCase.acquireOwned k h
      · cases ho : m.owner k with
        | none => simpa [Monitor.call, ho] using CallCase.acquireFree k ho
        | some o =>
            have hop : o ≠ p := fun e => h (by rw [ho, e])
            simpa [Monitor.call, ho, hop] using CallCase.acquireSleep k ho hop
  | release k =>
      by_cases h : m.owner k = some p
      · simpa only [Monitor.call, if_pos h] using CallCase.release k h
      · simpa only [Monitor.call, if_neg h] using CallCase.releaseRefused k h
  | transfer k q =>
      by_cases h : m.owner k = some p
      · simpa only [Monitor.call, if_pos h] using CallCase.transfer k q h
      · simpa only [Monitor.call, if_neg h] using CallCase.transferRefused k q h
  | wait c =>
      by_cases h : m.owner (m.bound c) = some p
      · simpa only [Monitor.call, if_pos h] using CallCase.wait c h
      · simpa only [Monitor.call, if_neg h] using CallCase.waitRefused c h
  | signal c =>
      by_cases h : m.owner (m.bound c) = some p
      · cases hq : m.waiting (.cond c) with
        | nil => simpa only [Monitor.call, if_pos h, hq] using CallCase.signalNone c h hq
        | cons q rest => simpa only [Monitor.call, if_pos h, hq] using CallCase.signal c h hq
      · simpa only [Monitor.call, if_neg h] using CallCase.signalRefused c h

section Facts

variable {m m' : Monitor P S L C} {p q : P} {c : Call P S L C} {r : Outcome} {k : L}
  {w : WaitPoint S L C}

omit [DecidableEq P] in
/-- Handing a lock over touches no other lock and no queue but that of the lock. -/
theorem Monitor.handOver_owner_of_ne (m : Monitor P S L C) {j : L} (h : j ≠ k) :
    (m.handOver k).owner j = m.owner j := by
  rw [handOver]
  split
  · exact setOwner_of_ne _ _ _ _ h
  · exact setOwner_of_ne _ _ _ _ h

omit [DecidableEq P] in
theorem Monitor.handOver_owner (m : Monitor P S L C) (k : L) :
    (m.handOver k).owner k = (m.waiting (.lock k)).head? := by
  rw [handOver]
  split <;> simp [*]

omit [DecidableEq P] in
/-- Who has the lock after it was handed over came first in its queue. -/
theorem Monitor.waiting_of_handOver (h : (m.handOver k).owner k = some q) :
    ∃ rest, m.waiting (.lock k) = q :: rest := by
  rw [handOver_owner] at h
  exact List.head?_eq_some_iff.mp h

omit [DecidableEq P] in
theorem Monitor.handOver_waiting (m : Monitor P S L C) (k : L) (w : WaitPoint S L C) :
    (m.handOver k).waiting w =
      if w = .lock k then (m.waiting (.lock k)).tail else m.waiting w := by
  rw [handOver]
  split
  next e =>
    split_ifs with h
    · simp [h, e]
    · rfl
  next e =>
    split_ifs with h
    · simp [h, e]
    · exact setWaiting_of_ne _ _ _ _ h

omit [DecidableEq P] in
/-- Who has the lock after it was handed over waits for it no more. -/
theorem Monitor.not_waiting_of_handOver (hd : (m.waiting (.lock k)).Nodup)
    (h : (m.handOver k).owner k = some q) : q ∉ (m.handOver k).waiting (.lock k) := by
  obtain ⟨rest, hw⟩ := waiting_of_handOver h
  rw [handOver_waiting, if_pos rfl, hw]
  exact (List.nodup_cons.mp (hw ▸ hd)).1

omit [DecidableEq P] in
@[simp] theorem Monitor.handOver_bound (m : Monitor P S L C) (k : L) :
    (m.handOver k).bound = m.bound := by
  rw [handOver]
  split <;> rfl

omit [DecidableEq P] in
@[simp] theorem Monitor.handOver_count (m : Monitor P S L C) (k : L) :
    (m.handOver k).count = m.count := by
  rw [handOver]
  split <;> rfl

namespace CallCase

/-- No call binds a condition variable to another lock. -/
theorem bound_eq (h : CallCase m p c r m') : m'.bound = m.bound := by
  cases h <;> simp

/-- Only its owner gives a lock away. -/
theorem owner_of_ne (h : CallCase m p c r m') (ho : m.owner k = some q) (hq : q ≠ p) :
    m'.owner k = some q := by
  have hp : ∀ j, m.owner j = some p → k ≠ j := fun j hj e => hq (by
    rw [e, hj] at ho
    exact (Option.some.inj ho).symm)
  cases h with
  | acquireFree j hj =>
      rw [setOwner_of_ne _ _ _ _ fun e => by rw [e, hj] at ho; cases ho]
      exact ho
  | release j hj => rw [handOver_owner_of_ne _ (hp j hj), ho]
  | transfer j o hj => rw [setWaiting_owner, setOwner_of_ne _ _ _ _ (hp j hj), ho]
  | wait d hd => rw [handOver_owner_of_ne _ (hp _ hd), enqueue_owner, ho]
  | signal d hd hw =>
      rw [enqueue_owner, setOwner_of_ne _ _ _ _ (hp _ hd), setWaiting_owner, ho]
  | _ => simpa using ho

/-- A call puts nobody into a queue but its caller, when it sleeps. -/
theorem mem_of_mem (h : CallCase m p c r m') (hq : q ∈ m'.waiting w) :
    q ∈ m.waiting w ∨ q = p ∧ r = .blocked ∧ m.point c = some w := by
  have added : ∀ v, m.point c = some v → r = .blocked → q ∈ (m.enqueue v p).waiting w →
      q ∈ m.waiting w ∨ q = p ∧ r = .blocked ∧ m.point c = some w := by
    intro v hv hr hm
    by_cases e : w = v
    · subst e
      rw [enqueue_self, List.mem_append, List.mem_singleton] at hm
      exact hm.imp_right fun hm => ⟨hm, hr, hv⟩
    · rw [enqueue_of_ne _ _ _ _ e] at hm
      exact .inl hm
  cases h with
  | semSleep s h => exact added _ rfl rfl hq
  | acquireSleep k h ho => exact added _ rfl rfl hq
  | semWake s h hw =>
      by_cases e : w = .sem s
      · subst e
        rw [setWaiting_self] at hq
        exact .inl (by simp [hw, hq])
      · rw [setWaiting_of_ne _ _ _ _ e] at hq
        exact .inl hq
  | release k h =>
      rw [handOver_waiting] at hq
      split_ifs at hq with e
      · exact .inl (e ▸ List.mem_of_mem_tail hq)
      · exact .inl hq
  | transfer k o h =>
      by_cases e : w = .lock k
      · subst e
        rw [setWaiting_self] at hq
        exact .inl (List.mem_of_mem_erase hq)
      · rw [setWaiting_of_ne _ _ _ _ e] at hq
        exact .inl hq
  | wait c h =>
      rw [handOver_waiting] at hq
      split_ifs at hq with e
      · exact added _ rfl rfl (e ▸ List.mem_of_mem_tail hq)
      · exact added _ rfl rfl hq
  | signal c h hw =>
      by_cases e : w = .lock (m.bound c)
      · subst e
        refine added _ rfl rfl ?_
        simpa [setWaiting_of_ne] using hq
      · rw [enqueue_of_ne _ _ _ _ e, setOwner_waiting] at hq
        by_cases e' : w = .cond c
        · subst e'
          rw [setWaiting_self] at hq
          exact .inl (by simp [hw, hq])
        · rw [setWaiting_of_ne _ _ _ _ e'] at hq
          exact .inl hq
  | _ => exact .inl hq

/-- A caller that sleeps does so in the queue of its call. -/
theorem mem_of_blocked (h : CallCase m p c .blocked m') :
    ∃ v, m.point c = some v ∧ p ∈ m'.waiting v := by
  cases h with
  | semSleep s h => exact ⟨_, rfl, by simp⟩
  | acquireSleep k h ho => exact ⟨_, rfl, by simp⟩
  | wait c h => exact ⟨.cond c, rfl, by simp [handOver_waiting]⟩
  | signal c h hw => exact ⟨_, rfl, by simp⟩

/-- The queues stay free of duplicates when the caller is in none of them. -/
theorem nodup (h : CallCase m p c r m') (hd : ∀ w, (m.waiting w).Nodup)
    (hp : ∀ w, p ∉ m.waiting w) (w : WaitPoint S L C) : (m'.waiting w).Nodup := by
  have added : ∀ v w, ((m.enqueue v p).waiting w).Nodup := by
    intro v w
    by_cases e : w = v
    · subst e
      rw [enqueue_self]
      exact (List.nodup_append.mpr ⟨hd w, by simp, fun a ha b hb => by
        rintro rfl
        exact hp w (by simpa [List.mem_singleton.mp hb] using ha)⟩)
    · rw [enqueue_of_ne _ _ _ _ e]
      exact hd w
  cases h with
  | semSleep s h => exact added _ w
  | acquireSleep k h ho => exact added _ w
  | semWake s h hw =>
      by_cases e : w = .sem s
      · subst e
        rw [setWaiting_self]
        exact (List.nodup_cons.mp (hw ▸ hd (.sem s))).2
      · rw [setWaiting_of_ne _ _ _ _ e]
        exact hd w
  | release k h =>
      rw [handOver_waiting]
      split_ifs with e
      · exact (hd _).sublist (List.tail_sublist _)
      · exact hd w
  | transfer k o h =>
      by_cases e : w = .lock k
      · subst e
        rw [setWaiting_self]
        exact (hd _).erase _
      · rw [setWaiting_of_ne _ _ _ _ e]
        exact hd w
  | wait c h =>
      rw [handOver_waiting]
      split_ifs with e
      · exact (added _ _).sublist (List.tail_sublist _)
      · exact added _ w
  | signal c h hw =>
      by_cases e : w = .lock (m.bound c)
      · subst e
        simpa [setWaiting_of_ne] using added (.lock (m.bound c)) (.lock (m.bound c))
      · rw [enqueue_of_ne _ _ _ _ e, setOwner_waiting]
        by_cases e' : w = .cond c
        · subst e'
          rw [setWaiting_self]
          exact (List.nodup_cons.mp (hw ▸ hd (.cond c))).2
        · rw [setWaiting_of_ne _ _ _ _ e']
          exact hd w
  | _ => exact hd w

/-- A process that leaves a queue has been handed the lock its sleep was for. -/
theorem owner_of_woken (h : CallCase m p c r m') (hq : q ∈ m.waiting w)
    (hq' : q ∉ m'.waiting w) (hk : m.handed w = some k) :
    m'.owner k = some q := by
  have kept : ∀ v, q ∈ (m.enqueue v p).waiting w := by
    intro v
    by_cases e : w = v
    · subst e
      simp [hq]
    · rwa [enqueue_of_ne _ _ _ _ e]
  have head : ∀ ps : List P, q ∈ ps → q ∉ ps.tail → ps.head? = some q := by
    intro ps h₁ h₂
    cases ps with
    | nil => cases h₁
    | cons a rest => exact congrArg some ((List.mem_cons.mp h₁).resolve_right h₂).symm
  cases h with
  | semSleep s h => exact absurd (kept _) hq'
  | acquireSleep k h ho => exact absurd (kept _) hq'
  | semWake s h hw =>
      by_cases e : w = .sem s
      · subst e
        cases hk
      · rw [setWaiting_of_ne _ _ _ _ e] at hq'
        exact absurd hq hq'
  | release j h =>
      rw [handOver_waiting] at hq'
      split_ifs at hq' with e
      · subst e
        cases hk
        rw [handOver_owner]
        exact head _ hq hq'
      · exact absurd hq hq'
  | transfer j o h =>
      by_cases e : w = .lock j
      · subst e
        cases hk
        rw [setWaiting_self] at hq'
        rw [setWaiting_owner, setOwner_self]
        by_contra hne
        exact hq' ((List.mem_erase_of_ne fun e => hne (by rw [e])).mpr hq)
      · rw [setWaiting_of_ne _ _ _ _ e] at hq'
        exact absurd hq hq'
  | wait d h =>
      rw [handOver_waiting] at hq'
      split_ifs at hq' with e
      · subst e
        cases hk
        rw [handOver_owner]
        exact head _ (kept _) hq'
      · exact absurd (kept _) hq'
  | signal d h hw =>
      by_cases e : w = .cond d
      · subst e
        cases hk
        rw [enqueue_owner, setOwner_self]
        rw [enqueue_of_ne _ _ _ _ (by simp), setOwner_waiting, setWaiting_self] at hq'
        exact congrArg some ((List.mem_cons.mp (hw ▸ hq)).resolve_right hq').symm
      · refine absurd ?_ hq'
        by_cases e' : w = .lock (m.bound d)
        · subst e'
          simp [setWaiting_of_ne, hq]
        · rw [enqueue_of_ne _ _ _ _ e', setOwner_waiting, setWaiting_of_ne _ _ _ _ e]
          exact hq
  | _ => exact absurd hq hq'

/-- Nobody waits for a free lock. -/
theorem free (h : CallCase m p c r m') (hf : ∀ k, m.owner k = none → m.waiting (.lock k) = [])
    (k : L) (hk : m'.owner k = none) : m'.waiting (.lock k) = [] := by
  have handed_over : ∀ (n : Monitor P S L C) (j : L),
      (∀ k, n.owner k = none → n.waiting (.lock k) = []) → (n.handOver j).owner k = none →
        (n.handOver j).waiting (.lock k) = [] := by
    intro n j hn hk
    rw [handOver_waiting]
    by_cases e : k = j
    · subst e
      rw [handOver_owner, List.head?_eq_none_iff] at hk
      simp [hk]
    · rw [handOver_owner_of_ne _ e] at hk
      rw [if_neg (by simpa using e), hn k hk]
  cases h with
  | semSleep s h => exact hf k hk
  | acquireFree j h =>
      by_cases e : k = j
      · simp [e] at hk
      · rw [setOwner_of_ne _ _ _ _ e] at hk
        exact hf k hk
  | acquireSleep j h ho =>
      have e : k ≠ j := fun e => by rw [e, enqueue_owner, h] at hk; cases hk
      rw [enqueue_of_ne _ _ _ _ (by simpa using e)]
      exact hf k hk
  | release j h => exact handed_over _ _ hf hk
  | transfer j o h =>
      by_cases e : k = j
      · simp [e] at hk
      · rw [setWaiting_owner, setOwner_of_ne _ _ _ _ e] at hk
        rw [setWaiting_of_ne _ _ _ _ (by simpa using e)]
        exact hf k hk
  | wait c h =>
      refine handed_over _ _ (fun j hj => ?_) hk
      rw [enqueue_of_ne _ _ _ _ (by simp)]
      exact hf j hj
  | signal c h hw =>
      by_cases e : k = m.bound c
      · simp [e] at hk
      · rw [enqueue_owner, setOwner_of_ne _ _ _ _ e] at hk
        rw [enqueue_of_ne _ _ _ _ (by simpa using e), setOwner_waiting,
          setWaiting_of_ne _ _ _ _ (by simp)]
        exact hf k hk
  | _ => exact hf k hk

/-- The owner of a lock does not wait for it. -/
theorem apart (h : CallCase m p c r m') (hd : ∀ w, (m.waiting w).Nodup)
    (hp : ∀ w, p ∉ m.waiting w) (hw : ∀ k q, m.owner k = some q → q ∉ m.waiting (.lock k))
    (hs : ∀ d k q, q ∈ m.waiting (.cond d) → q ∉ m.waiting (.lock k))
    (hk : m'.owner k = some q) : q ∉ m'.waiting (.lock k) := by
  have handed_over : ∀ (n : Monitor P S L C) (j : L), (n.waiting (.lock j)).Nodup →
      (k ≠ j → n.owner k = some q → q ∉ n.waiting (.lock k)) →
        (n.handOver j).owner k = some q → q ∉ (n.handOver j).waiting (.lock k) := by
    intro n j hn hq hk
    by_cases e : k = j
    · subst e
      exact not_waiting_of_handOver hn hk
    · rw [handOver_waiting, if_neg (by simpa using e)]
      rw [handOver_owner_of_ne _ e] at hk
      exact hq e hk
  cases h with
  | semWake s h hq => rw [setWaiting_of_ne _ _ _ _ (by simp)]; exact hw k q hk
  | semSleep s h => rw [enqueue_of_ne _ _ _ _ (by simp)]; exact hw k q hk
  | acquireFree j h =>
      by_cases e : k = j
      · subst e
        obtain rfl : p = q := by simpa using hk
        exact hp _
      · rw [setOwner_of_ne _ _ _ _ e] at hk
        exact hw k q hk
  | acquireSleep j h ho =>
      by_cases e : k = j
      · subst e
        obtain rfl := Option.some.inj (h.symm.trans hk)
        simpa [ho] using hw k _ hk
      · rw [enqueue_of_ne _ _ _ _ (by simpa using e)]
        exact hw k q hk
  | release j h => exact handed_over _ _ (hd _) (fun _ => hw k q) hk
  | transfer j o h =>
      by_cases e : k = j
      · subst e
        obtain rfl : o = q := by simpa using hk
        rw [setWaiting_self]
        exact (hd _).not_mem_erase
      · rw [setWaiting_owner, setOwner_of_ne _ _ _ _ e] at hk
        rw [setWaiting_of_ne _ _ _ _ (by simpa using e)]
        exact hw k q hk
  | wait c h =>
      refine handed_over _ _ ?_ (fun _ ho => ?_) hk
      · rw [enqueue_of_ne _ _ _ _ (by simp)]
        exact hd _
      · rw [enqueue_of_ne _ _ _ _ (by simp)]
        exact hw k q ho
  | @signal c a rest h hq =>
      by_cases e : k = m.bound c
      · subst e
        obtain rfl : a = q := by simpa using hk
        have hm : a ∈ m.waiting (.cond c) := by simp [hq]
        have hap : a ≠ p := fun e => hp _ (e ▸ hm)
        simpa [setWaiting_of_ne, hap] using hs c _ a hm
      · rw [enqueue_owner, setOwner_of_ne _ _ _ _ e] at hk
        rw [enqueue_of_ne _ _ _ _ (by simpa using e), setOwner_waiting,
          setWaiting_of_ne _ _ _ _ (by simp)]
        exact hw k q hk
  | _ => exact hw k q hk

/-- Nobody waits at a semaphore with a positive count. -/
theorem spent (h : CallCase m p c r m') (hc : ∀ s, 0 < m.count s → m.waiting (.sem s) = [])
    (s : S) (hs : 0 < m'.count s) : m'.waiting (.sem s) = [] := by
  cases h with
  | semTake t h =>
      by_cases e : s = t
      · exact hc s (e ▸ h)
      · rw [setCount_of_ne _ _ _ e] at hs
        exact hc s hs
  | semSleep t h =>
      have e : s ≠ t := fun e => by rw [e, enqueue_count] at hs; omega
      rw [enqueue_of_ne _ _ _ _ (by simpa using e)]
      exact hc s hs
  | semCount t h =>
      by_cases e : s = t
      · subst e
        rw [setCount_self] at hs
        exact h.resolve_right (by omega)
      · rw [setCount_of_ne _ _ _ e] at hs
        exact hc s hs
  | semWake t h hw =>
      have e : s ≠ t := fun e => by
        rw [e] at hs
        rw [hc t hs] at hw
        cases hw
      rw [setWaiting_of_ne _ _ _ _ (by simpa using e)]
      exact hc s hs
  | acquireSleep k h ho =>
      rw [enqueue_of_ne _ _ _ _ (by simp)]
      exact hc s hs
  | release k h =>
      rw [handOver_waiting, if_neg (by simp)]
      exact hc s (by simpa using hs)
  | transfer k o h =>
      rw [setWaiting_of_ne _ _ _ _ (by simp)]
      exact hc s hs
  | wait c h =>
      rw [handOver_waiting, if_neg (by simp), enqueue_of_ne _ _ _ _ (by simp)]
      exact hc s (by simpa using hs)
  | signal c h hw =>
      rw [enqueue_of_ne _ _ _ _ (by simp), setOwner_waiting, setWaiting_of_ne _ _ _ _ (by simp)]
      exact hc s hs
  | _ => exact hc s hs

/-- A free lock gets an owner only through `acquire`. -/
theorem owner_source (h : CallCase m p c r m') (hk : m.owner k = none)
    (hk' : m'.owner k ≠ none) : c = .acquire k := by
  have ne : ∀ {j}, m.owner j = some p → k ≠ j := fun hj e => by rw [e, hj] at hk; cases hk
  cases h with
  | acquireFree j h =>
      by_contra e
      exact hk' ((setOwner_of_ne _ _ _ _ fun c => e (by rw [c])).trans hk)
  | release j h => exact absurd ((handOver_owner_of_ne _ (ne h)).trans hk) hk'
  | transfer j o h => exact absurd ((setOwner_of_ne _ _ _ _ (ne h)).trans hk) hk'
  | wait c h => exact absurd ((handOver_owner_of_ne _ (ne h)).trans (by simpa using hk)) hk'
  | signal c h hw => exact absurd ((setOwner_of_ne _ _ _ _ (ne h)).trans hk) hk'
  | _ => exact absurd hk hk'

/-- An owner that a call brings about acquired the lock, or is handed it by the former owner. -/
theorem new_owner (h : CallCase m p c r m') (ho : m'.owner k = some q) : m.owner k = some q ∨
    q = p ∧ c = .acquire k ∧ r = .returned true ∨
      m.owner k = some p ∧ ((∃ w, q ∈ m.waiting w) ∨ c = .transfer k q) := by
  have other : ∀ {j} {n : Monitor P S L C} {o : Option P}, (n.setOwner j o).owner k = some q →
      k ≠ j → n.owner k = some q := fun e hne => by
    rwa [setOwner_of_ne _ _ _ _ hne] at e
  cases h with
  | acquireFree j h =>
      by_cases e : k = j
      · subst e
        rw [setOwner_self] at ho
        exact .inr (.inl ⟨(Option.some.inj ho).symm, rfl, rfl⟩)
      · exact .inl (other ho e)
  | release j h =>
      by_cases e : k = j
      · subst e
        rw [handOver_owner] at ho
        exact .inr (.inr ⟨h, .inl ⟨_, List.mem_of_mem_head? ho⟩⟩)
      · rw [handOver_owner_of_ne _ e] at ho
        exact .inl ho
  | transfer j o h =>
      by_cases e : k = j
      · subst e
        rw [setWaiting_owner, setOwner_self] at ho
        exact .inr (.inr ⟨h, .inr (by rw [Option.some.inj ho])⟩)
      · exact .inl (other ho e)
  | wait d h =>
      by_cases e : k = m.bound d
      · subst e
        rw [handOver_owner, enqueue_of_ne _ _ _ _ (by simp)] at ho
        exact .inr (.inr ⟨h, .inl ⟨_, List.mem_of_mem_head? ho⟩⟩)
      · rw [handOver_owner_of_ne _ e] at ho
        exact .inl ho
  | @signal d a rest h hw =>
      by_cases e : k = m.bound d
      · subst e
        rw [enqueue_owner, setOwner_self] at ho
        obtain rfl : a = q := Option.some.inj ho
        exact .inr (.inr ⟨h, .inl ⟨.cond d, by simp [hw]⟩⟩)
      · exact .inl (other (n := m.setWaiting _ _) ho e)
  | _ => exact .inl ho

end CallCase

end Facts

end DlxOs.Monitors
