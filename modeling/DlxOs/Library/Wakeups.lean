import DlxOs.Library.Sessions

/-!
# Which process a call wakes

A call wakes at most one process. All queues lose this process, and the queue
where the caller goes to sleep gains the caller.
-/

namespace DlxOs.Monitors

open Monitor

variable {P S L C : Type*} [DecidableEq P] [DecidableEq S] [DecidableEq L] [DecidableEq C]

/-- The process that a call of `p` takes off a queue. -/
def Monitor.woken (m : Monitor P S L C) (p : P) : Call P S L C → Option P
  | .semSignal s => if 0 < m.count s + 1 then (m.waiting (.sem s)).head? else none
  | .release k => if m.owner k = some p then (m.waiting (.lock k)).head? else none
  | .transfer k q => if m.owner k = some p ∧ q ∈ m.waiting (.lock k) then some q else none
  | .wait c => if m.owner (m.bound c) = some p then (m.waiting (.lock (m.bound c))).head? else none
  | .signal c => if m.owner (m.bound c) = some p then (m.waiting (.cond c)).head? else none
  | _ => none

/-- The list without the process, if there is one. -/
def without (ps : List P) : Option P → List P
  | none => ps
  | some q => ps.erase q

@[simp] theorem without_none (ps : List P) : without ps none = ps := rfl

@[simp] theorem without_some (ps : List P) (q : P) : without ps (some q) = ps.erase q := rfl

theorem without_eq_self {ps : List P} {o : Option P} (h : ∀ q, o = some q → q ∉ ps) :
    without ps o = ps := by
  cases o with
  | none => rfl
  | some q => exact List.erase_of_not_mem (h q rfl)

theorem without_head (ps : List P) : without ps ps.head? = ps.tail := by
  cases ps <;> simp

theorem mem_without {ps : List P} {o : Option P} {q : P} (h : q ∈ without ps o) : q ∈ ps := by
  cases o with
  | none => exact h
  | some r => exact List.mem_of_mem_erase h

theorem mem_without_of_ne {ps : List P} {o : Option P} {q : P} (h : q ∈ ps) (hq : o ≠ some q) :
    q ∈ without ps o := by
  cases o with
  | none => exact h
  | some r => exact (List.mem_erase_of_ne fun e => hq (by rw [e])).mpr h

theorem not_mem_without {ps : List P} {q : P} (h : ps.Nodup) : q ∉ without ps (some q) :=
  h.not_mem_erase

variable {m m' : Monitor P S L C} {p q : P} {c : Call P S L C} {w : WaitPoint S L C}

omit [DecidableEq S] [DecidableEq L] [DecidableEq C] in
/-- The woken process comes from one queue, the one it is taken off. -/
theorem woken_mem (h : m.woken p c = some q) : ∃ w, q ∈ m.waiting w := by
  have head : ∀ {ps : List P}, ps.head? = some q → q ∈ ps := List.mem_of_mem_head?
  cases c with
  | semSignal s =>
      simp only [Monitor.woken] at h
      split_ifs at h
      exact ⟨_, head h⟩
  | release k =>
      simp only [Monitor.woken] at h
      split_ifs at h
      exact ⟨_, head h⟩
  | transfer k o =>
      simp only [Monitor.woken] at h
      split_ifs at h with e
      exact ⟨_, Option.some.inj h ▸ e.2⟩
  | wait d =>
      simp only [Monitor.woken] at h
      split_ifs at h
      exact ⟨_, head h⟩
  | signal d =>
      simp only [Monitor.woken] at h
      split_ifs at h
      exact ⟨_, head h⟩
  | _ => cases h

/-- Exactly the woken process leaves the queues, and the caller joins where it sleeps. -/
theorem call_waiting (unique : ∀ q w v, q ∈ m.waiting w → q ∈ m.waiting v → w = v)
    (w : WaitPoint S L C) :
    (m.call p c).2.waiting w = without (m.waiting w) (m.woken p c) ++
      if (m.call p c).1 = .blocked ∧ m.point c = some w then [p] else [] := by
  have apart : ∀ {v}, w ≠ v → ∀ q, (m.waiting v).head? = some q → q ∉ m.waiting w :=
    fun hv q hq hm => hv (unique q _ _ hm (List.mem_of_mem_head? hq))
  have hcase := call_cases m p c
  generalize (m.call p c).1 = r at hcase ⊢
  generalize (m.call p c).2 = m' at hcase ⊢
  cases hcase with
  | semSleep s h =>
      by_cases e : w = .sem s
      · subst e
        simp [Monitor.woken, Monitor.point]
      · have e' : ¬ (WaitPoint.sem s = w) := fun c => e c.symm
        simp [Monitor.woken, Monitor.point, enqueue_of_ne _ _ _ _ e, e']
  | semCount s h =>
      have hn : m.woken p (.semSignal s) = none := by
        rcases h with h | h
        · simp [Monitor.woken, h]
        · simp [Monitor.woken, show ¬ 0 < m.count s + 1 by omega]
      simp [hn]
  | @semWake s q rest h hq =>
      have hn : m.woken p (.semSignal s) = (m.waiting (.sem s)).head? := if_pos h
      rw [hn]
      by_cases e : w = .sem s
      · subst e
        rw [without_head, hq]
        simp
      · rw [without_eq_self (apart e), setWaiting_of_ne _ _ _ _ e]
        simp
  | acquireSleep k h ho =>
      by_cases e : w = .lock k
      · subst e
        simp [Monitor.woken, Monitor.point]
      · have e' : ¬ (WaitPoint.lock k = w) := fun c => e c.symm
        simp [Monitor.woken, Monitor.point, enqueue_of_ne _ _ _ _ e, e']
  | releaseRefused k h => simp [Monitor.woken, h]
  | release k h =>
      have hn : m.woken p (.release k) = (m.waiting (.lock k)).head? := if_pos h
      rw [hn, handOver_waiting]
      by_cases e : w = .lock k
      · subst e
        simp [without_head]
      · rw [if_neg e, without_eq_self (apart e)]
        simp
  | transferRefused k q h => simp [Monitor.woken, h]
  | transfer k q h =>
      by_cases hq : q ∈ m.waiting (.lock k)
      · have hn : m.woken p (.transfer k q) = some q := if_pos ⟨h, hq⟩
        rw [hn]
        by_cases e : w = .lock k
        · subst e
          simp
        · rw [without_eq_self fun o ho hm => e (unique o _ _ hm (Option.some.inj ho ▸ hq))]
          simp [setWaiting_of_ne _ _ _ _ e]
      · have hn : m.woken p (.transfer k q) = none := if_neg fun c => hq c.2
        rw [hn]
        by_cases e : w = .lock k
        · subst e
          simp [List.erase_of_not_mem hq]
        · simp [setWaiting_of_ne _ _ _ _ e]
  | waitRefused d h => simp [Monitor.woken, h]
  | wait d h =>
      have hn : m.woken p (.wait d) = (m.waiting (.lock (m.bound d))).head? := if_pos h
      rw [hn, handOver_waiting, enqueue_of_ne _ _ _ _ (by simp)]
      by_cases e : w = .lock (m.bound d)
      · subst e
        simp [without_head, Monitor.point]
      · rw [if_neg e, without_eq_self (apart e)]
        by_cases e' : w = .cond d
        · subst e'
          simp [Monitor.point]
        · have e'' : ¬ (WaitPoint.cond d = w) := fun c => e' c.symm
          simp [Monitor.point, enqueue_of_ne _ _ _ _ e', e'']
  | signalRefused d h => simp [Monitor.woken, h]
  | signalNone d h hq => simp [Monitor.woken, h, hq]
  | @signal d q rest h hq =>
      have hn : m.woken p (.signal d) = (m.waiting (.cond d)).head? := if_pos h
      rw [hn]
      by_cases e : w = .cond d
      · subst e
        rw [without_head, hq, enqueue_of_ne _ _ _ _ (by simp)]
        simp [Monitor.point]
      · rw [without_eq_self (apart e)]
        by_cases e' : w = .lock (m.bound d)
        · subst e'
          simp [Monitor.point, setWaiting_of_ne]
        · have e'' : ¬ (WaitPoint.lock (m.bound d) = w) := fun c => e' c.symm
          simp [Monitor.point, enqueue_of_ne _ _ _ _ e', setWaiting_of_ne _ _ _ _ e, e'']
  | _ => simp [Monitor.woken]

end DlxOs.Monitors
