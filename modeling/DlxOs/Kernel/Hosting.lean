import DlxOs.Kernel.Ownership
import DlxOs.Library.Discipline
import DlxOs.Library.Hosting

/-!
# Programs that run as processes of the kernel

A program of several processes runs on the kernel beside other processes. Each
of its processes is forked into a PCB, makes its requests there whenever it is
the current process, may sleep in them and be rescheduled, and exits where its
program stops. Everything else the kernel does goes on around it.

## Main results

* `hosted_simulates`: whatever the kernel and the other processes do, the
  processes of the program only do what the runs of the program allow.

## Implementation notes

A PCB is used again after an exit, also by another process of the program. That
a process owns no lock where it stops is a condition on the program.
-/

namespace DlxOs.Kernel

open Queue Monitors Transition

/-- The objects of a program among those of the kernel. -/
abbrev Handles (S L C : Type*) := Names S L C SemPtr LockPtr CondPtr

variable {S L C P : Type*} {Loc : P → Type*} {Mem : Type*}

/-- The request behind a call; the handle is the index of the object. -/
def Handles.request (ν : Handles S L C) : Call P S L C → Option Syscall
  | .semWait s => some (.semWait (ν.sem s).val)
  | .semSignal s => some (.semSignal (ν.sem s).val)
  | .acquire k => some (.lockAcquire (ν.lock k).val)
  | .release k => some (.lockRelease (ν.lock k).val)
  | .transfer _ _ => none
  | .wait c => some (.condWait (ν.cond c).val)
  | .signal c => some (.condSignal (ν.cond c).val)

/-- Whether a process of the program has been forked, and where it runs. -/
inductive Place
  | unborn
  | runs (pcb : PcbPtr)
  | gone
  deriving DecidableEq

def Place.pcb : Place → Option PcbPtr
  | .runs pcb => some pcb
  | _ => none

/-- The machine, and where the processes of a program are on it and in their programs. -/
structure Hosted (P : Type*) (Loc : P → Type*) (Mem : Type*) where
  machine : Machine
  place : P → Place
  loc : (p : P) → Loc p
  mem : Mem

/-- What happens in one step: other processes act, or one of the program. -/
inductive HostedEvent (P : Type*)
  | elsewhere (e : KEvent)
  | born (p : P)
  | compute (p : P)
  | request (p : P)
  | resume (p : P)
  | exit (p : P)

/-- The steps in which a process of the program gets on. -/
def HostedEvent.works : HostedEvent P → Bool
  | .compute _ => true
  | .request _ => true
  | .resume _ => true
  | _ => false

/-- The process of the program that gets on in a step. -/
def HostedEvent.worker : HostedEvent P → Option P
  | .compute p => some p
  | .request p => some p
  | .resume p => some p
  | _ => none

theorem HostedEvent.works_eq (l : HostedEvent P) : l.works = l.worker.isSome := by
  cases l <;> rfl

/-- Other processes act, and on objects that the program does not have to itself. -/
def KEvent.Elsewhere (ν : Handles S L C) (place : P → Place) : KEvent → Prop
  | .tick => True
  | .fork _ _ => True
  | .exit q => ∀ p, place p ≠ .runs q
  | .sleep q => ∀ p, place p ≠ .runs q
  | .wakeup q => ∀ p, place p ≠ .runs q
  | .call q c _ => (∀ p, place p ≠ .runs q) ∧
      ∀ d, c.meaning = some d → ∀ w, ν.Own w → d.target ≠ ν.point w
  | .resume q _ _ => ∀ p, place p ≠ .runs q

variable [DecidableEq P]

namespace Hosted

/-- Process `p` of the program goes on at local state `l`. -/
def goOn (h : Hosted P Loc Mem) (p : P) (l : Loc p) : Hosted P Loc Mem :=
  { h with loc := Function.update h.loc p l }

def setPlace (h : Hosted P Loc Mem) (p : P) (x : Place) : Hosted P Loc Mem :=
  { h with place := Function.update h.place p x }

/-- After a request the process is inside it or goes on. -/
def answered (h : Hosted P Loc Mem) (m : Machine) (p : P) (l : Loc p) : Ret → Hosted P Loc Mem
  | .returned _ => { h with machine := m }.goOn p l
  | .asleep _ => { h with machine := m }

inductive Step (π : Program P S L C Loc Mem) (ν : Handles S L C) (h : Hosted P Loc Mem) :
    HostedEvent P → Hosted P Loc Mem → Prop
  | elsewhere {e m} (hs : h.machine.Step e m) (he : e.Elsewhere ν h.place) :
      Step π ν h (.elsewhere e) { h with machine := m }
  | born {p a m} {r : PcbPtr} (unborn : h.place p = .unborn)
      (hs : h.machine.Step (.fork a r.val) m) :
      Step π ν h (.born p) ({ h with machine := m }.setPlace p (.runs r))
  | compute {p r f} (there : h.place p = .runs r) (active : h.machine.Active r)
      (act : π p (h.loc p) = .compute f) :
      Step π ν h (.compute p) ({ h with mem := (f h.mem).2 }.goOn p (f h.mem).1)
  | request {p r c l sys v m} (there : h.place p = .runs r) (act : π p (h.loc p) = .call c l)
      (req : ν.request c = some sys) (hs : h.machine.Step (.call r sys v) m) :
      Step π ν h (.request p) (h.answered m p l v)
  | resume {p r c l sys v m} (there : h.place p = .runs r) (act : π p (h.loc p) = .call c l)
      (hs : h.machine.Step (.resume r sys v) m) :
      Step π ν h (.resume p) ({ h with machine := m }.goOn p l)
  | exit {p r m} (there : h.place p = .runs r) (act : π p (h.loc p) = .stop)
      (hs : h.machine.Step (.exit r) m) :
      Step π ν h (.exit p) ({ h with machine := m }.setPlace p .gone)

end Hosted

/-- The program is about to be started on the kernel: its objects have been created and nobody has
used them yet. -/
structure Hosted.Begins [DecidableEq S] [DecidableEq L] [DecidableEq C] (ν : Handles S L C)
    (start : Threads P S L C Loc Mem) (h : Hosted P Loc Mem) : Prop where
  reach : kernelSystem.Reachable h.machine
  unborn : ∀ p, h.place p = .unborn
  loc : h.loc = start.loc
  mem : h.mem = start.mem
  used : ∀ w, h.machine.kernel.inuse (ν.point w) = true
  uncalled : ∀ q d w, h.machine.view.pending q = some d → d.target ≠ ν.point w
  waiting : ∀ w, h.machine.kernel.monitor.waiting (ν.point w) = []
  count : ∀ s, h.machine.kernel.monitor.count (ν.sem s) = start.session.mon.count s
  owner : ∀ k, h.machine.kernel.monitor.owner (ν.lock k) = none
  bound : ∀ c, h.machine.kernel.monitor.bound (ν.cond c) = ν.lock (start.session.mon.bound c)

/-- The runs of the kernel with a program on it. -/
def hostedSystem [DecidableEq S] [DecidableEq L] [DecidableEq C] (π : Program P S L C Loc Mem)
    (ν : Handles S L C) (start : Threads P S L C Loc Mem) :
    System (Hosted P Loc Mem) (HostedEvent P) where
  Init := Hosted.Begins ν start
  Step := Hosted.Step π ν

variable {ν : Handles S L C} {m m' : Machine} {p : P} {q r : PcbPtr} {e : KEvent}

omit [DecidableEq P] in
/-- Every call but a transfer is requested from the kernel. -/
theorem Handles.request_some {c : Call P S L C} (h : ∀ k q, c ≠ .transfer k q) :
    ∃ sys, ν.request c = some sys := by
  cases c with
  | transfer k q => exact absurd rfl (h k q)
  | _ => exact ⟨_, rfl⟩

omit [DecidableEq P] in
/-- The request of a call means the call on the object of the kernel. -/
theorem Handles.request_meaning {c : Call P S L C} {sys : Syscall} (h : ν.request c = some sys) :
    ∃ d, sys.meaning = some d ∧ ν.call c = some d := by
  cases c <;> cases h <;> simp [Syscall.meaning, Names.call]

omit [DecidableEq P] in
/-- What others do to other objects is nothing to the session of the program. -/
theorem KEvent.Elsewhere.meaning {place : P → Place} (he : e.Elsewhere ν place) (m : Machine) :
    (m.meaning e).Elsewhere ν (fun p => (place p).pcb) := by
  have apart : ∀ {q}, (∀ p, place p ≠ .runs q) → ∀ p, (place p).pcb ≠ some q := by
    intro q hq p hp
    cases hpl : place p with
    | runs r =>
        rw [hpl] at hp
        exact hq p (hpl.trans (congrArg Place.runs (Option.some.inj hp)))
    | _ => rw [hpl] at hp; cases hp
  cases e with
  | call q c v =>
      obtain ⟨hq, ht⟩ := he
      cases hd : c.meaning with
      | some d =>
          simp only [Machine.meaning, hd]
          split_ifs
          · exact ⟨apart hq, ht d hd⟩
          · trivial
      | none =>
          simp only [Machine.meaning, hd]
          split
          · cases index maxSems _ <;> trivial
          · cases index maxLocks _ <;> trivial
          · cases index maxConds _ <;> cases index maxLocks _ <;> trivial
          · trivial
  | resume q c v =>
      cases hd : c.meaning with
      | some d =>
          simp only [Machine.meaning, hd, Option.map_some, Option.getD_some]
          exact apart he
      | none => simp [Machine.meaning, hd, Event.Elsewhere]
  | _ => trivial

/-- A process can run, or is queued at an object. -/
def Machine.Ready (m : Machine) (r : PcbPtr) : Prop :=
  r ∈ m.kernel.sched.run ∨ ∃ w, r ∈ m.kernel.monitor.waiting w

theorem Machine.Inv.ready_not_free (h : m.Inv) (hr : m.Ready r) : r ∉ m.kernel.sched.free :=
  h.table.not_free (hr.imp_right fun ⟨w, hw⟩ => h.queued w r hw)

/-- A call leaves everybody able to run or queued. -/
theorem Machine.Inv.ready_performed (h : m.Inv) (hcur : m.kernel.currentPCB = some q) {d : KCall}
    {v : Ret} {K : KState} (hp : Performed m.kernel q d v K) (hr : m.Ready r) :
    r ∈ K.sched.run ∨ ∃ w, r ∈ K.monitor.waiting w := by
  rcases hr with hr | ⟨w, hw⟩
  · by_cases e : r = q
    · subst e
      by_cases hb : v.outcome = .blocked
      · exact .inr (hp.queued hb)
      · exact .inl (hp.caller_run hb hr)
    · exact .inl (hp.run_of_ne hr e)
  · by_cases hwoken : m.kernel.monitor.woken q d = some r
    · have e : r ≠ q := by
        rintro rfl
        exact (h.serving hcur).awake w hw
      exact .inl (hp.woken_run hwoken e)
    · refine .inr ⟨w, ?_⟩
      rw [hp.waiting_eq (fun q w v hw hv => h.sound.unique hw hv) w]
      exact List.mem_append_left _ (mem_without_of_ne hw hwoken)

/-- Who neither exits nor sleeps outside the primitives can run or is queued ever after. -/
theorem Machine.Inv.ready_step (h : m.Inv) (hs : m.Step e m') (hr : m.Ready r)
    (hexit : e ≠ .exit r) (hsleep : e ≠ .sleep r) : m'.Ready r := by
  have moved : ∀ {K : KState}, K.monitor = m.kernel.monitor →
      (r ∈ m.kernel.sched.run → r ∈ K.sched.run) → (m.setKernel K).Ready r := by
    intro K hm hrun
    refine hr.imp hrun fun ⟨w, hw⟩ => ⟨w, ?_⟩
    change r ∈ K.monitor.waiting w
    rwa [hm]
  cases hs with
  | tick hs =>
      obtain ⟨p, rest, hrun, hm, hs', -⟩ := h.tick_moves hs
      refine moved hm.monitor fun hr => ?_
      rw [hs']
      simpa [hrun, or_comm] using hr
  | fork hs =>
      obtain ⟨p, rest, -, hm, ⟨-, hs', -⟩ | ⟨-, hs', -⟩⟩ := h.fork_moves hs
      · refine moved hm.monitor fun hr => ?_
        rw [hs']
        exact List.mem_append_left _ hr
      · exact moved hm.monitor fun hr => by rwa [hs']
  | @exit p K active hs =>
      obtain ⟨q, rest, hrun, hm, hs', -⟩ := h.exit_moves active.1 hs
      have hne : r ≠ p := fun c => hexit (c ▸ rfl)
      refine moved hm.monitor fun hr => ?_
      rw [hs']
      simpa [hrun, hne, or_comm] using hr
  | @sleep p K active hs =>
      obtain ⟨q, rest, -, hm, hs', -⟩ := h.sleep_moves active.1 hs
      have hne : r ≠ p := fun c => hsleep (c ▸ rfl)
      refine moved hm.monitor fun hr => ?_
      rw [hs']
      exact (List.mem_erase_of_ne hne).mpr hr
  | wakeup running outside waiting hs =>
      obtain ⟨hm, hs', -⟩ := h.wakeup_moves ((h.waiting_iff _).mp waiting) hs
      refine moved hm.monitor fun hr => ?_
      rw [hs']
      exact List.mem_append_left _ hr
  | @call p c level v K active legal hs =>
      obtain ⟨h₀, -⟩ := h.setLevel level
      obtain ⟨hsv, hkernel⟩ := h.call_served active legal hs
      have kept : ∀ {K : KState}, K.list = m.kernel.list →
          r ∈ K.sched.run ∨ ∃ w, r ∈ K.monitor.waiting w := by
        intro K hl
        have hrun : K.sched.run = m.kernel.sched.run := congrFun hl .runQueue
        have hwait : K.monitor.waiting = m.kernel.monitor.waiting :=
          funext fun w => congrFun hl (.waiting w)
        rwa [hrun, hwait]
      rw [Ready, hkernel]
      cases hsv with
      | call hd hu hp =>
          refine h₀.ready_performed active.1 hp (hr.imp (fun hr => ?_) fun ⟨w, hw⟩ => ⟨w, ?_⟩)
          · simpa [Machine.setKernel] using hr
          · simpa [Machine.setKernel] using hw
      | refused hc => exact kept (KState.setIntrs_list ..)
      | newSem hu hc => exact kept (hc.list.trans (KState.setIntrs_list ..))
      | newLock hu hc => exact kept (hc.list.trans (KState.setIntrs_list ..))
      | newCond hu hk hc => exact kept (hc.list.trans (KState.setIntrs_list ..))
  | resume current pending hs =>
      obtain ⟨rfl, rfl⟩ := Prod.mk.inj (Except.ok.inj (show
        Except.ok (syncSuccess, m.kernel.setIntrs _) = _ from hs))
      refine moved (K := m.kernel.setIntrs _) (KState.setIntrs_monitor ..) fun hr => ?_
      rwa [KState.setIntrs_sched]

/-- A process that has just been forked was free before, can run, and is inside no call. -/
theorem Machine.Inv.born (h : m.Inv) {a : ForkAnswers} (hs : m.Step (.fork a r.val) m') :
    r ∈ m.kernel.sched.free ∧ r ∈ m'.kernel.sched.run ∧ m.pending r = none := by
  cases hs with
  | @fork _ _ K hs =>
      obtain ⟨p, rest, hfree, hm, ⟨hv, hs', -⟩ | ⟨hv, -⟩⟩ := h.fork_moves hs
      · obtain rfl : r = p := Fin.ext (Int.ofNat.inj hv)
        have hin : r ∈ m.kernel.sched.free := by simp [hfree]
        have hrun : r ∈ K.sched.run := by simp [hs']
        refine ⟨hin, hrun, ?_⟩
        cases hpend : m.pending r with
        | none => rfl
        | some e => exact absurd hin (h.ready_not_free (h.inside r e hpend).2)
      · omega

namespace Hosted

/-- The processes of the program that are somewhere can run there or are queued, and its session is
what it sees of the machine. -/
structure Shown (ν : Handles S L C) (h : Hosted P Loc Mem) (σ : Session P S L C) : Prop where
  inv : h.machine.Inv
  ready : ∀ p r, h.place p = .runs r → h.machine.Ready r
  hosts : Hosts ν (fun p => (h.place p).pcb) h.machine.view σ

variable [DecidableEq S] [DecidableEq L] [DecidableEq C] {h h' : Hosted P Loc Mem}
  {σ : Session P S L C} {π : Program P S L C Loc Mem} {start : Threads P S L C Loc Mem}

omit [DecidableEq P] [DecidableEq S] [DecidableEq L] [DecidableEq C] in
/-- A step of the machine in which nobody of the program exits or sleeps outside the primitives. -/
theorem Shown.ready_step (hσ : h.Shown ν σ) (hs : h.machine.Step e m)
    (he : ∀ p r, h.place p = .runs r → e ≠ .exit r ∧ e ≠ .sleep r) :
    ∀ p r, h.place p = .runs r → m.Ready r := fun p r hp =>
  hσ.inv.ready_step hs (hσ.ready p r hp) (he p r hp).1 (he p r hp).2

omit [DecidableEq P] in
theorem Begins.shown (hb : h.Begins ν start) (fresh : start.Fresh) : h.Shown ν start.session := by
  have none : ∀ p, (h.place p).pcb = none := fun p => by rw [hb.unborn p]; rfl
  refine ⟨reachable_inv hb.reach, fun p r hp => ?_, ⟨⟨fun w hw => ?_, fun s _ => hb.count s,
    fun k => ?_,
    hb.bound, fun s _ => fresh.waiting _⟩, fun p q r hp => ?_, fun p r hp => ?_,
    fun p _ => fresh.pending p, hb.used, fresh.inuse⟩⟩
  · rw [hb.unborn p] at hp
    cases hp
  · rw [fresh.waiting w]
    exact congrArg (List.map some) (hb.waiting w)
  · rw [fresh.owner k]
    exact congrArg (Option.map some) (hb.owner k)
  · rw [none p] at hp
    cases hp
  · rw [none p] at hp
    cases hp

omit [DecidableEq P] [DecidableEq S] [DecidableEq L] [DecidableEq C] in
theorem pcb_at (there : h.place p = .runs r) : (h.place p).pcb = some r := by rw [there]; rfl

omit [DecidableEq P] [DecidableEq S] [DecidableEq L] [DecidableEq C] in
/-- Whoever is at a PCB is the only one there. -/
theorem Shown.place_inj (hσ : h.Shown ν σ) {q : P} (hp : h.place p = .runs r)
    (hq : h.place q = .runs r) : p = q :=
  hσ.hosts.distinct p q r (pcb_at hp) (pcb_at hq)

omit [DecidableEq S] [DecidableEq L] [DecidableEq C] in
theorem setPlace_pcb (h : Hosted P Loc Mem) (p : P) (x : Place) :
    (fun q => ((h.setPlace p x).place q).pcb) =
      Function.update (fun q => (h.place q).pcb) p x.pcb := by
  funext q
  by_cases e : q = p
  · subst e
    simp [setPlace]
  · simp [setPlace, e]

omit [DecidableEq P] [DecidableEq S] [DecidableEq L] [DecidableEq C] in
/-- What happens elsewhere. -/
theorem Shown.elsewhere (hσ : h.Shown ν σ) (hs : h.machine.Step e m) (he : e.Elsewhere ν h.place) :
    Shown ν { h with machine := m } σ := by
  obtain ⟨hinv, hview⟩ := hσ.inv.step hs
  refine ⟨hinv, hσ.ready_step hs fun p r hp => ⟨?_, ?_⟩, hσ.hosts.elsewhere hview (he.meaning _)⟩
  · rintro rfl
    exact he p hp
  · rintro rfl
    exact he p hp

omit [DecidableEq S] [DecidableEq L] [DecidableEq C] in
/-- A process of the program is forked. -/
theorem Shown.born (hσ : h.Shown ν σ) {a : ForkAnswers} (unborn : h.place p = .unborn)
    (hs : h.machine.Step (.fork a r.val) m) :
    Shown ν ({ h with machine := m }.setPlace p (.runs r)) σ := by
  obtain ⟨hfree, hrun, hpend⟩ := hσ.inv.born hs
  obtain ⟨hinv, hview⟩ := hσ.inv.step hs
  have nobody : ∀ q, h.place q ≠ .runs r := fun q hq =>
    hσ.inv.ready_not_free (hσ.ready q r hq) hfree
  have hosts := hσ.hosts.elsewhere hview trivial
  refine ⟨hinv, fun q t hq => ?_, ?_⟩
  · by_cases e : q = p
    · obtain rfl : r = t := by simpa [setPlace, e] using hq
      exact .inl hrun
    · exact hσ.ready_step hs (fun _ _ _ => by simp) q t (by simpa [setPlace, e] using hq)
  · rw [setPlace_pcb]
    refine hosts.enter (by rw [unborn]; rfl) (fun q hq => nobody q ?_) ?_
    · cases hpl : h.place q with
      | runs t =>
          rw [hpl] at hq
          rw [Option.some.inj hq]
      | _ => rw [hpl] at hq; cases hq
    · cases hs
      simp [Machine.view, Machine.setKernel, hpend]

/-- Where the processes of the program are in its own runs. -/
abbrev threads (h : Hosted P Loc Mem) (σ : Session P S L C) : Threads P S L C Loc Mem :=
  ⟨σ, h.loc, h.mem⟩

omit [DecidableEq P] [DecidableEq S] [DecidableEq L] [DecidableEq C] in
/-- A process of the program that is awake can run. -/
theorem Shown.runnable (hσ : h.Shown ν σ) (coherent : (h.threads σ).Coherent π)
    (quiet : ∀ p l s next, ν.common s → π p l ≠ .call (.semWait s) next)
    (there : h.place p = .runs r) (awake : σ.Awake p) : r ∈ h.machine.kernel.sched.run := by
  have unqueued := hσ.hosts.awake hσ.inv.sound (pcb_at there) (fun s hs hp => by
    obtain ⟨l, act⟩ := coherent.called p _ hp
    exact quiet p _ s l hs act) awake
  exact (hσ.ready p r there).resolve_right fun ⟨w, hw⟩ => unqueued w hw

omit [DecidableEq P] [DecidableEq S] [DecidableEq L] [DecidableEq C] in
/-- A process of the program that is asleep is on a queue of the kernel. -/
theorem Shown.asleep (hσ : h.Shown ν σ) (asleep : ¬ σ.Awake p) :
    ∃ r w, h.place p = .runs r ∧ r ∈ h.machine.kernel.monitor.waiting (ν.point w) := by
  obtain ⟨w, hw⟩ := not_forall_not.mp asleep
  have own : ν.Own w := by
    cases w with
    | sem s =>
        intro hs
        rw [hσ.hosts.alone s hs] at hw
        cases hw
    | _ => trivial
  have hm : (h.place p).pcb ∈ (h.machine.view.mon.waiting (ν.point w)).map some := by
    rw [hσ.hosts.waiting w own]
    exact List.mem_map_of_mem hw
  obtain ⟨r, hr, e⟩ := List.mem_map.mp hm
  refine ⟨r, w, ?_, hr⟩
  cases hp : h.place p <;> rw [hp] at e <;> cases e
  rfl

/-- A request of a process of the program is its call. -/
theorem Shown.request (hσ : h.Shown ν σ) (coherent : (h.threads σ).Coherent π) {c : Call P S L C}
    {l : Loc p} {sys : Syscall} {v : Ret} (quiet : ∀ s, ν.common s → c ≠ .semWait s)
    (there : h.place p = .runs r) (act : π p (h.loc p) = .call c l) (req : ν.request c = some sys)
    (hs : h.machine.Step (.call r sys v) m) :
    ∃ σ', (h.threads σ).Step π p ((h.answered m p l v).threads σ') ∧
      (h.answered m p l v).Shown ν σ' := by
  obtain ⟨d, hd, hc⟩ := ν.request_meaning req
  have hu : h.machine.kernel.inuse d.target = true := by
    rw [ν.call_target hc]
    exact hσ.hosts.inuse' _
  have hmean : h.machine.meaning (.call r sys v) = .call r d v.outcome := by
    simp [Machine.meaning, hd, hu]
  obtain ⟨hinv, hview⟩ := hσ.inv.step hs
  rw [hmean] at hview
  have ready := hσ.ready_step hs fun _ _ _ => by simp
  have hpend := hσ.hosts.pending p r (pcb_at there)
  generalize hmv : m.view = n at hview
  generalize hv : v.outcome = o at hview
  cases hview with
  | call outside used =>
      rw [outside] at hpend
      have hp : σ.pending p = none := by
        cases hp : σ.pending p with
        | none => rfl
        | some c' =>
            obtain ⟨l', e⟩ := coherent.called p c' hp
            obtain rfl : c' = c := (Action.call.inj (act.symm.trans e)).1.symm
            simp [hp, hc] at hpend
      obtain ⟨hr, hosts⟩ := hσ.hosts.call (pcb_at there) hc quiet
      rw [← hmv] at hosts
      rw [hr] at hv
      cases v with
      | returned v =>
          exact ⟨_, .pass (s := h.threads σ) hp act (hσ.hosts.inuse _) hv.symm, hinv, ready, hosts⟩
      | asleep i =>
          exact ⟨_, .block (s := h.threads σ) hp act (hσ.hosts.inuse _) hv.symm, hinv, ready, hosts⟩

omit [DecidableEq S] [DecidableEq L] [DecidableEq C] in
/-- A process of the program that returns from a sleep is inside the call it makes there. -/
theorem Shown.inside (hσ : h.Shown ν σ) (coherent : (h.threads σ).Coherent π) {c : Call P S L C}
    {l : Loc p} {sys : Syscall} {v : Int} (there : h.place p = .runs r)
    (act : π p (h.loc p) = .call c l) (hs : h.machine.Step (.resume r sys v) m) :
    σ.pending p = some c ∧ ∃ d, h.machine.meaning (.resume r sys v) = .ret r d ∧
      ν.call c = some d := by
  have hmeant : sys.meaning ≠ none := by
    cases hs with
    | resume current pending hs => exact (hσ.inv.inside r _ pending).1
  obtain ⟨d, hd⟩ := Option.ne_none_iff_exists'.mp hmeant
  have hmean : h.machine.meaning (.resume r sys v) = .ret r d := by simp [Machine.meaning, hd]
  have hview := (hσ.inv.step hs).2
  rw [hmean] at hview
  generalize m.view = n at hview
  cases hview with
  | ret inside awake =>
      obtain ⟨c', hc', hd', -⟩ := hσ.hosts.ret (pcb_at there) inside awake
      obtain ⟨l', e⟩ := coherent.called p c' hc'
      obtain rfl : c' = c := (Action.call.inj (act.symm.trans e)).1.symm
      exact ⟨hc', d, hmean, hd'⟩

/-- A process of the program returns from a sleep. -/
theorem Shown.resume (hσ : h.Shown ν σ) (coherent : (h.threads σ).Coherent π) {c : Call P S L C}
    {l : Loc p} {sys : Syscall} {v : Int} (there : h.place p = .runs r)
    (act : π p (h.loc p) = .call c l) (hs : h.machine.Step (.resume r sys v) m) :
    ∃ σ', (h.threads σ).Step π p (({ h with machine := m }.goOn p l).threads σ') ∧
      ({ h with machine := m }.goOn p l).Shown ν σ' := by
  obtain ⟨hc, d, hmean, -⟩ := hσ.inside coherent there act hs
  obtain ⟨hinv, hview⟩ := hσ.inv.step hs
  rw [hmean] at hview
  have ready := hσ.ready_step hs fun _ _ _ => by simp
  generalize hmv : m.view = n at hview
  cases hview with
  | ret inside awake =>
      obtain ⟨-, -, -, ha, hosts⟩ := hσ.hosts.ret (pcb_at there) inside awake
      rw [← hmv] at hosts
      exact ⟨_, .wake (s := h.threads σ) hc ha act, hinv, ready, hosts⟩

omit [DecidableEq S] [DecidableEq L] [DecidableEq C] in
/-- A process of the program exits where it stops. -/
theorem Shown.exit (hσ : h.Shown ν σ) (coherent : (h.threads σ).Coherent π)
    (owns : ∀ k, σ.mon.owner k ≠ some p) (there : h.place p = .runs r)
    (act : π p (h.loc p) = .stop) (hs : h.machine.Step (.exit r) m) :
    Shown ν ({ h with machine := m }.setPlace p .gone) σ := by
  obtain ⟨hinv, hview⟩ := hσ.inv.step hs
  have hp : σ.pending p = none := coherent.stopped act
  refine ⟨hinv, fun q t hq => ?_, ?_⟩
  · have hne : q ≠ p := by
      rintro rfl
      simp [setPlace] at hq
    have hq : h.place q = .runs t := by simpa [setPlace, hne] using hq
    refine hσ.inv.ready_step hs (hσ.ready q t hq) (fun e => ?_) nofun
    rw [← KEvent.exit.inj e] at hq
    exact hne (hσ.place_inj hq there)
  · rw [setPlace_pcb]
    exact (hσ.hosts.elsewhere hview trivial).leave hp coherent.sound owns

end Hosted

section Simulation

variable [DecidableEq S] [DecidableEq L] [DecidableEq C] {π : Program P S L C Loc Mem}
  {start : Threads P S L C Loc Mem} {h h' : Hosted P Loc Mem} {l : HostedEvent P}

omit [DecidableEq S] [DecidableEq L] [DecidableEq C] in
/-- A step leaves the machine alone or is one of its steps. -/
theorem Hosted.Step.machine (hs : h.Step π ν l h') :
    h'.machine = h.machine ∨ ∃ e, h.machine.Step e h'.machine := by
  cases hs with
  | elsewhere hs he => exact .inr ⟨_, hs⟩
  | born unborn hs => exact .inr ⟨_, hs⟩
  | compute there active act => exact .inl rfl
  | @request p r c next sys v m there act req hs => cases v <;> exact .inr ⟨_, hs⟩
  | resume there act hs => exact .inr ⟨_, hs⟩
  | exit there act hs => exact .inr ⟨_, hs⟩

/-- A process of the program that has exited is where it stops. -/
theorem hosted_gone (hr : (hostedSystem π ν start).Reachable h) {p : P} (gone : h.place p = .gone) :
    π p (h.loc p) = .stop := by
  induction hr with
  | init hb =>
      rw [Hosted.Begins.unborn hb p] at gone
      cases gone
  | @step h l h' _ hs ih =>
      have moved : ∀ {q r} {x : Loc q}, h.place q = .runs r → h.place p = .gone →
          π p (Function.update h.loc q x p) = .stop := by
        intro q r x there gone
        have hne : p ≠ q := by
          rintro rfl
          rw [there] at gone
          cases gone
        rw [Function.update_of_ne hne]
        exact ih gone
      cases hs with
      | elsewhere hs he => exact ih gone
      | @born q a m r unborn hs =>
          have hne : p ≠ q := by
            rintro rfl
            simp [Hosted.setPlace] at gone
          exact ih (by simpa [Hosted.setPlace, hne] using gone)
      | compute there active act => exact moved there gone
      | @request q r c next sys v m there act req hs =>
          cases v with
          | returned b => exact moved there gone
          | asleep i => exact ih gone
      | resume there act hs => exact moved there gone
      | @exit q r m there act hs =>
          by_cases hne : p = q
          · exact hne ▸ act
          · exact ih (by simpa [Hosted.setPlace, hne] using gone)

/-- Under a program the kernel is as everywhere. -/
theorem hosted_machine (hr : (hostedSystem π ν start).Reachable h) :
    kernelSystem.Reachable h.machine := by
  induction hr with
  | init hb => exact Hosted.Begins.reach hb
  | step _ hs ih =>
      rcases hs.machine with e | ⟨e, hs⟩
      · rwa [e]
      · exact ih.step hs

/-- When a process of a program gets on it takes a step of the program, and in all other steps the
program stays where it is. -/
theorem Hosted.Step.threads {l : HostedEvent P} {σ : Session P S L C} (hs : h.Step π ν l h')
    (fresh : start.Fresh) (quiet : ∀ p l s next, ν.common s → π p l ≠ .call (.semWait s) next)
    (lets : ∀ s, (π.system start).Reachable s → ∀ p, π p (s.loc p) = .stop →
      ∀ k, s.session.mon.owner k ≠ some p)
    (hreach : (π.system start).Reachable (h.threads σ)) (hσ : h.Shown ν σ) :
    ∃ σ', h'.Shown ν σ' ∧ (l.worker = none ∧ h'.threads σ' = h.threads σ ∨
      ∃ p, l.worker = some p ∧ (h.threads σ).Step π p (h'.threads σ')) := by
  have coherent := Threads.reachable_coherent fresh hreach
  cases hs with
  | elsewhere hs he => exact ⟨σ, hσ.elsewhere hs he, .inl ⟨rfl, rfl⟩⟩
  | born unborn hs => exact ⟨σ, hσ.born unborn hs, .inl ⟨rfl, rfl⟩⟩
  | compute there active act =>
      exact ⟨σ, ⟨hσ.inv, hσ.ready, hσ.hosts⟩,
        .inr ⟨_, rfl, .compute (s := h.threads σ) (coherent.outside act) act⟩⟩
  | @request p r c next sys v m there act req hs =>
      obtain ⟨σ', hstep, hσ'⟩ := hσ.request coherent
        (fun s hc e => quiet p _ s next hc (e ▸ act)) there act req hs
      exact ⟨σ', hσ', .inr ⟨p, rfl, hstep⟩⟩
  | @resume p r c next sys v m there act hs =>
      obtain ⟨σ', hstep, hσ'⟩ := hσ.resume coherent there act hs
      exact ⟨σ', hσ', .inr ⟨p, rfl, hstep⟩⟩
  | exit there act hs =>
      exact ⟨σ, hσ.exit coherent (lets _ hreach _ act) there act hs, .inl ⟨rfl, rfl⟩⟩

/-- Whatever the kernel and other processes do, the processes of a program that waits on no common
semaphore and owns no lock where it stops do what its own runs allow. -/
theorem hosted_simulates (fresh : start.Fresh)
    (quiet : ∀ p l s next, ν.common s → π p l ≠ .call (.semWait s) next)
    (lets : ∀ s, (π.system start).Reachable s → ∀ p, π p (s.loc p) = .stop →
      ∀ k, s.session.mon.owner k ≠ some p)
    (hr : (hostedSystem π ν start).Reachable h) :
    ∃ σ, (π.system start).Reachable (h.threads σ) ∧ h.Shown ν σ := by
  induction hr with
  | @init h hb =>
      refine ⟨start.session, .init ?_, hb.shown fresh⟩
      change Threads.mk _ _ _ = start
      rw [hb.loc, hb.mem]
  | @step h l h' _ hs ih =>
      obtain ⟨σ, hreach, hσ⟩ := ih
      obtain ⟨σ', hσ', ⟨-, e⟩ | ⟨p, -, hstep⟩⟩ := hs.threads fresh quiet lets hreach hσ
      · exact ⟨σ', e ▸ hreach, hσ'⟩
      · exact ⟨σ', hreach.step hstep, hσ'⟩

/-- If every step of a program brings a measure down, its processes get on no more often than the
measure says at the start, whatever happens around them. -/
theorem hosted_bounded (fresh : start.Fresh)
    (quiet : ∀ p l s next, ν.common s → π p l ≠ .call (.semWait s) next)
    (lets : ∀ s, (π.system start).Reachable s → ∀ p, π p (s.loc p) = .stop →
      ∀ k, s.session.mon.owner k ≠ some p)
    (measure : Threads P S L C Loc Mem → ℕ)
    (falls : ∀ s p t, (π.system start).Reachable s → s.Step π p t → measure t < measure s)
    (hb : h.Begins ν start) {es : List (HostedEvent P)}
    (run : (hostedSystem π ν start).Run h es h') : es.countP HostedEvent.works ≤ measure start := by
  have counts : ∀ {h es h'}, (hostedSystem π ν start).Run h es h' → ∀ σ,
      (π.system start).Reachable (h.threads σ) → h.Shown ν σ →
      es.countP HostedEvent.works ≤ measure (h.threads σ) := fun run => by
    induction run with
    | nil h => exact fun σ _ _ => Nat.zero_le _
    | @cons h l h₁ es h' first tail ih =>
        intro σ hreach hσ
        obtain ⟨σ', hσ', ⟨hl, e⟩ | ⟨p, hl, hstep⟩⟩ := first.threads fresh quiet lets hreach hσ
        · rw [List.countP_cons_of_neg (by simp [l.works_eq, hl]), ← e]
          exact ih σ' (e ▸ hreach) hσ'
        · rw [List.countP_cons_of_pos (by simp [l.works_eq, hl])]
          have := ih σ' (hreach.step hstep) hσ'
          have := falls _ p _ hreach hstep
          omega
  have e : h.threads start.session = start := by
    change Threads.mk _ _ _ = start
    rw [hb.loc, hb.mem]
  have := counts run start.session (.init e) (hb.shown fresh)
  rwa [e] at this

/-- A program that always has somebody awake while work is left always has somebody whom the kernel
can run. -/
theorem hosted_runs (fresh : start.Fresh)
    (quiet : ∀ p l s next, ν.common s → π p l ≠ .call (.semWait s) next)
    (lets : ∀ s, (π.system start).Reachable s → ∀ p, π p (s.loc p) = .stop →
      ∀ k, s.session.mon.owner k ≠ some p)
    (live : ∀ s, (π.system start).Reachable s → (∃ p, π p (s.loc p) ≠ .stop) →
      ∃ p, π p (s.loc p) ≠ .stop ∧ s.session.Awake p)
    (hr : (hostedSystem π ν start).Reachable h) (forked : ∀ p, h.place p ≠ .unborn)
    (hu : ∃ p, π p (h.loc p) ≠ .stop) :
    ∃ p r, π p (h.loc p) ≠ .stop ∧ h.place p = .runs r ∧ r ∈ h.machine.kernel.sched.run := by
  obtain ⟨σ, hσ, shown⟩ := hosted_simulates fresh quiet lets hr
  obtain ⟨p, hp, awake⟩ := live _ hσ hu
  cases there : h.place p with
  | unborn => exact absurd there (forked p)
  | runs r =>
      exact ⟨p, r, hp, there,
        shown.runnable (Threads.reachable_coherent fresh hσ) quiet there awake⟩
  | gone => exact absurd (hosted_gone hr there) hp

/-- If the processes of a program compute only where they have a lock, the one that is about to
compute has the kernel's lock, and no other one is about to. -/
theorem hosted_locked (fresh : start.Fresh)
    (quiet : ∀ p l s next, ν.common s → π p l ≠ .call (.semWait s) next)
    (lets : ∀ s, (π.system start).Reachable s → ∀ p, π p (s.loc p) = .stop →
      ∀ k, s.session.mon.owner k ≠ some p) {k : L} {holds : (p : P) → Loc p → Prop}
    (guarded : ∀ s, (π.system start).Reachable s → s.Guarded k holds)
    (inside : ∀ p l f, π p l = .compute f → holds p l)
    (hr : (hostedSystem π ν start).Reachable h) {p : P} {f : Mem → Loc p × Mem}
    (act : π p (h.loc p) = .compute f) :
    ∃ r, h.place p = .runs r ∧ (h.machine.kernel.locks (ν.lock k)).pid = r.val ∧
      ∀ q g, π q (h.loc q) = .compute g → q = p := by
  obtain ⟨σ, hσ, shown⟩ := hosted_simulates fresh quiet lets hr
  have coherent := Threads.reachable_coherent fresh hσ
  have owns : ∀ q g, π q (h.loc q) = .compute g → σ.mon.owner k = some q := fun q g act => by
    have outside : σ.pending q = none := coherent.outside act
    refine (guarded _ hσ q).mpr ?_
    simp only [Threads.Inside, outside]
    exact inside q _ g act
  have hown := shown.hosts.owner k
  rw [owns p f act, Option.map_some] at hown
  obtain ⟨r, hr, e⟩ := Option.map_eq_some_iff.mp hown
  refine ⟨r, ?_, KState.owner_pid hr, fun q g actq => ?_⟩
  · cases hp : h.place p <;> rw [hp] at e <;> cases e
    rfl
  · exact Option.some.inj ((owns q g actq).symm.trans (owns p f act))

/-- All processes of the program have stopped or sleep. -/
def Hosted.Stalled (π : Program P S L C Loc Mem) (h : Hosted P Loc Mem) (σ : Session P S L C) :
    Prop :=
  ∀ p, π p (h.loc p) = .stop ∨ ¬ σ.Awake p

/-- Nobody else brings a stalled program on its way again. -/
theorem Hosted.Stalled.run {σ : Session P S L C} {es : List (HostedEvent P)}
    (hs : h.Stalled π σ) (fresh : start.Fresh)
    (quiet : ∀ p l s next, ν.common s → π p l ≠ .call (.semWait s) next)
    (lets : ∀ s, (π.system start).Reachable s → ∀ p, π p (s.loc p) = .stop →
      ∀ k, s.session.mon.owner k ≠ some p)
    (hreach : (π.system start).Reachable (h.threads σ)) (hσ : h.Shown ν σ)
    (run : (hostedSystem π ν start).Run h es h') :
    h'.Shown ν σ ∧ h'.threads σ = h.threads σ := by
  induction run with
  | nil h => exact ⟨hσ, rfl⟩
  | @cons h l h₁ es h' first tail ih =>
      have coherent := Threads.reachable_coherent fresh hreach
      obtain ⟨σ', hσ₁, ⟨-, e⟩ | ⟨p, -, hstep⟩⟩ := first.threads fresh quiet lets hreach hσ
      · obtain rfl : σ' = σ := congrArg Threads.session e
        have hloc : h₁.loc = h.loc := congrArg Threads.loc e
        obtain ⟨hσ', e'⟩ := ih (by rw [Hosted.Stalled, hloc]; exact hs) (e ▸ hreach) hσ₁
        exact ⟨hσ', e'.trans e⟩
      · exact absurd (hstep.awake coherent) ((hs p).resolve_left hstep.ne_stop)

end Simulation

end DlxOs.Kernel
