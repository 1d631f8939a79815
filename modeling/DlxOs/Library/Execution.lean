import DlxOs.Library.Threads

/-!
# Runs by a schedule

A schedule names the process that takes each step. As long as nobody has to be
woken up the states of the run are computed, and they are reachable.
-/

namespace DlxOs.Monitors.Threads

variable {P S L C : Type*} {Loc : P → Type*} {Mem : Type*} [DecidableEq P] [DecidableEq S]
  [DecidableEq L] [DecidableEq C] {π : Program P S L C Loc Mem}
  {s t start : Threads P S L C Loc Mem} {p : P}

/-- The step of a process outside all calls. -/
def next (π : Program P S L C Loc Mem) (s : Threads P S L C Loc Mem) (p : P) :
    Option (Threads P S L C Loc Mem) :=
  if (s.session.pending p).isNone then
    match π p (s.loc p) with
    | .call c l =>
      if s.session.inuse c.target then
        match (s.session.mon.call p c).1 with
        | .returned _ => some ((s.call p c).setLoc p l)
        | .blocked => some (s.call p c)
      else none
    | .compute f => some { s.setLoc p (f s.mem).1 with mem := (f s.mem).2 }
    | .stop => none
  else none

/-- The state after the steps of a schedule. -/
def exec (π : Program P S L C Loc Mem) (s : Threads P S L C Loc Mem) :
    List P → Option (Threads P S L C Loc Mem)
  | [] => some s
  | p :: ps => (next π s p).bind fun t => exec π t ps

theorem next_step (h : next π s p = some t) : s.Step π p t := by
  rw [next] at h
  split at h
  · rename_i outside
    have outside := Option.isNone_iff_eq_none.mp outside
    split at h
    · rename_i act
      split at h
      · rename_i used
        split at h
        · rename_i returned
          obtain rfl := Option.some.inj h
          exact .pass outside act used returned
        · rename_i blocked
          obtain rfl := Option.some.inj h
          exact .block outside act used blocked
      · cases h
    · rename_i act
      obtain rfl := Option.some.inj h
      exact .compute outside act
    · cases h
  · cases h

/-- A schedule leads to a reachable state. -/
theorem exec_reachable (ps : List P) (hs : (π.system start).Reachable s)
    (h : exec π s ps = some t) : (π.system start).Reachable t := by
  induction ps generalizing s with
  | nil =>
      obtain rfl : s = t := Option.some.inj h
      exact hs
  | cons p ps ih =>
      obtain ⟨u, hu, ht⟩ := Option.bind_eq_some_iff.mp h
      exact ih (hs.step (next_step hu)) ht

variable (π start) in
/-- A condition that the end of a schedule meets is met by a reachable state. -/
theorem exists_of_exec (ps : List P) {φ : Threads P S L C Loc Mem → Bool}
    (h : (exec π start ps).any φ = true) : ∃ t, (π.system start).Reachable t ∧ φ t = true := by
  obtain ⟨t, ht, hφ⟩ := (Option.any_eq_true _ _).mp h
  exact ⟨t, exec_reachable ps (.init rfl) ht, hφ⟩

end DlxOs.Monitors.Threads
