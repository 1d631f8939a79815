import DlxOs.Kernel.Hosting
import DlxOs.Library.Latch

/-!
# Waiting for the children of a program

The parent of a program creates a semaphore with one minus the number of its
children. Every child signals it once when it has done its work, and the parent
waits on it once. However the kernel schedules them, the parent gets through
only after all the signals.
-/

namespace DlxOs.Kernel

open Queue Monitors Session Transition

variable {S L C P : Type*} {Loc : P → Type*} {Mem : Type*}

/-- Others leave it to the program to signal semaphore `s`. -/
def HostedEvent.Unsignalled (s : SemPtr) : HostedEvent P → Prop
  | .elsewhere (.call _ c _) => c.meaning ≠ some (.semSignal s)
  | _ => True

/-- A process gets through a wait on semaphore `s`. -/
def KEvent.GetsThrough (s : SemPtr) : KEvent → Prop
  | .call _ c (.returned v) => c.meaning = some (.semWait s) ∧ v = syncSuccess
  | .resume _ c _ => c.meaning = some (.semWait s)
  | _ => False

variable [DecidableEq P] [DecidableEq S] [DecidableEq L] [DecidableEq C] [Fintype P]
  {π : Program P S L C Loc Mem} {start : Threads P S L C Loc Mem} {ν : Handles S L C}
  {h h' : Hosted P Loc Mem} {s : S} {signalled : (p : P) → Loc p → Bool} {m m' : Machine}
  {e : KEvent} {p : P} {r : PcbPtr} {σ : Session P S L C}

/-- What is not a request to signal the semaphore is no signal for the processes. -/
theorem KEvent.not_signals {t : SemPtr} (he : ∀ q c v, e = .call q c v →
    c.meaning ≠ some (.semSignal t)) : ¬ (m.meaning e).Signals t := by
  cases e with
  | call q c v =>
      have hne := he q c v rfl
      simp only [Machine.meaning]
      cases hd : c.meaning with
      | some d =>
          dsimp only
          split_ifs
          · rintro hs
            cases d with
            | semSignal u => exact hne (by rw [hd, show u = t from hs])
            | _ => exact hs
          · exact id
      | none =>
          dsimp only
          split
          · cases index maxSems _ <;> exact id
          · cases index maxLocks _ <;> exact id
          · cases index maxConds _ <;> cases index maxLocks _ <;> exact id
          · exact id
  | resume q c v =>
      simp only [Machine.meaning]
      cases c.meaning <;> exact id
  | _ => exact id

theorem KEvent.GetsThrough.passes {t : SemPtr} (he : e.GetsThrough t)
    (hu : m.kernel.inuse (.sem t) = true) : (m.meaning e).Passes t := by
  cases e with
  | call q c v =>
      cases v with
      | returned v =>
          obtain ⟨hc, rfl⟩ := he
          simp [Machine.meaning, hc, Call.target, hu, Ret.outcome, Event.Passes]
      | asleep i => exact he.elim
  | resume q c v =>
      have hc : c.meaning = some (.semWait t) := he
      simp [Machine.meaning, hc, Event.Passes]
  | _ => exact he.elim

namespace Hosted

/-- As many signals are missing at the semaphore as processes have not signalled it. -/
def Awaits (ν : Handles S L C) (s : S) (signalled : (p : P) → Loc p → Bool)
    (h : Hosted P Loc Mem) : Prop :=
  h.machine.view.Latched (ν.sem s) (missing signalled h.loc).card

omit [DecidableEq P] in
theorem Begins.awaits (hb : h.Begins ν start)
    (count : start.session.mon.count s = 1 - (Fintype.card P : ℤ))
    (unsignalled : ∀ p, signalled p (start.loc p) = false) : h.Awaits ν s signalled := by
  intro _
  have all : missing signalled h.loc = Finset.univ := by
    rw [hb.loc]
    exact Finset.filter_true_of_mem fun p _ => unsignalled p
  rw [all, Finset.card_univ]
  exact ⟨(hb.count s).trans count, fun q hq => absurd rfl (hb.uncalled q _ (.sem s) hq)⟩

omit [DecidableEq P] [DecidableEq S] [DecidableEq L] [DecidableEq C] in
/-- A step of the machine that does not signal leaves as many signals missing. -/
theorem Awaits.keep (hw : h.Awaits ν s signalled) (hσ : h.Shown ν σ) (hs : h.machine.Step e m)
    (he : ¬ (h.machine.meaning e).Signals (ν.sem s)) {loc : (p : P) → Loc p}
    (hl : missing signalled loc = missing signalled h.loc) :
    m.view.Latched (ν.sem s) (missing signalled loc).card := by
  rw [hl]
  exact Latched.step hw (hσ.hosts.inuse' (.sem s)) (hσ.inv.step hs).2 he

/-- A request of the program is the signal of its process or none. -/
theorem Awaits.request (hw : h.Awaits ν s signalled) (hσ : h.Shown ν σ)
    (once : SignalsOnce π s signalled) {c : Call P S L C} {l : Loc p} {sys : Syscall} {v : Ret}
    (act : π p (h.loc p) = .call c l) (req : ν.request c = some sys)
    (hs : h.machine.Step (.call r sys v) m) : (h.answered m p l v).Awaits ν s signalled := by
  obtain ⟨d, hd, hc⟩ := ν.request_meaning req
  by_cases hcs : c = .semSignal s
  · subst hcs
    obtain rfl : Call.semSignal (ν.sem s) = d := Option.some.inj hc
    have marks := once p (h.loc p)
    rw [act] at marks
    obtain ⟨h₀, h₁⟩ := marks.1 rfl
    have hu : h.machine.kernel.inuse (.sem (ν.sem s)) = true := hσ.hosts.inuse' (.sem s)
    have hmean : h.machine.meaning (.call r sys v) = .call r (.semSignal (ν.sem s)) v.outcome := by
      simp [Machine.meaning, hd, Call.target, hu]
    have hview := (hσ.inv.step hs).2
    rw [hmean] at hview
    have hcard := missing_signal h₀ h₁
    rw [Awaits, hcard] at hw
    have hlatched := Latched.signal (p := r) hw
    generalize hmv : m.view = n at hview
    generalize hv : v.outcome = o at hview
    cases hview with
    | call outside used =>
        have returned : ∃ b, v = .returned b := by
          cases v with
          | returned b => exact ⟨b, rfl⟩
          | asleep i =>
              have := call_cases h.machine.view.mon r (.semSignal (ν.sem s))
              rw [← hv] at this
              obtain ⟨w, hw, -⟩ := this.mem_of_blocked
              cases hw
        obtain ⟨b, rfl⟩ := returned
        rw [← hmv] at hlatched
        exact hlatched
  · have hnot : ¬ (h.machine.meaning (.call r sys v)).Signals (ν.sem s) := by
      refine KEvent.not_signals fun q c' v' e => ?_
      obtain ⟨-, rfl, -⟩ := KEvent.call.inj e
      rw [hd]
      rintro e
      obtain rfl := Option.some.inj e
      cases c with
      | semSignal t => exact hcs (congrArg _ (ν.sem_inj (Call.semSignal.inj (Option.some.inj hc))))
      | _ => cases hc
    have marks := once p (h.loc p)
    rw [act] at marks
    cases v with
    | returned b => exact hw.keep hσ hs hnot (missing_keep (marks.2 hcs))
    | asleep i => exact hw.keep hσ hs hnot rfl

end Hosted

/-- Nobody gets through a wait on the semaphore before all processes of the program have signalled
it, if the program alone signals it. -/
theorem all_signalled (fresh : start.Fresh)
    (quiet : ∀ p l s next, ν.common s → π p l ≠ .call (.semWait s) next)
    (lets : ∀ s, (π.system start).Reachable s → ∀ p, π p (s.loc p) = .stop →
      ∀ k, s.session.mon.owner k ≠ some p)
    (once : SignalsOnce π s signalled)
    (count : start.session.mon.count s = 1 - (Fintype.card P : ℤ))
    (unsignalled : ∀ p, signalled p (start.loc p) = false)
    (hr : ((hostedSystem π ν start).restrict fun _ e => e.Unsignalled (ν.sem s)).Reachable h)
    (hs : h.machine.Step e m) (through : e.GetsThrough (ν.sem s)) (p : P) :
    signalled p (h.loc p) = true := by
  have awaits : h.Awaits ν s signalled := by
    refine hr.invariant (P := Hosted.Awaits ν s signalled)
      (fun h (hb : h.Begins ν start) => hb.awaits count unsignalled) fun h l h' hr hw hstep => ?_
    obtain ⟨hstep, alone⟩ := hstep
    obtain ⟨σ, hreach, hσ⟩ := hosted_simulates fresh quiet lets hr.unrestricted
    have coherent := Threads.reachable_coherent fresh hreach
    cases hstep with
    | elsewhere hs he =>
        refine hw.keep hσ hs (KEvent.not_signals fun q c v e => ?_) rfl
        subst e
        exact alone
    | born unborn hs => exact hw.keep hσ hs id rfl
    | @compute p r f there active act =>
        have marks := once p (h.loc p)
        rw [act] at marks
        exact (congrArg (fun x => h.machine.view.Latched (ν.sem s) (Finset.card x))
          (missing_keep (marks h.mem))).mpr hw
    | request there act req hs => exact hw.request hσ once act req hs
    | @resume p r c next sys v m there act hs =>
        obtain ⟨hc, d, hmean, -⟩ := hσ.inside coherent there act hs
        have marks := once p (h.loc p)
        rw [act] at marks
        refine hw.keep hσ hs (by rw [hmean]; exact id) (missing_keep (marks.2 ?_))
        rintro rfl
        exact coherent.sound.sleeps p _ hc rfl
    | exit there act hs => exact hw.keep hσ hs id rfl
  obtain ⟨σ, -, hσ⟩ := hosted_simulates fresh quiet lets hr.unrestricted
  have hu : h.machine.kernel.inuse (.sem (ν.sem s)) = true := hσ.hosts.inuse' (.sem s)
  have none : (missing signalled h.loc).card = 0 :=
    Latched.passes awaits (hσ.inv.step hs).2 (through.passes hu)
  have hp := Finset.filter_eq_empty_iff.mp (Finset.card_eq_zero.mp none) (Finset.mem_univ p)
  simpa using hp

end DlxOs.Kernel
