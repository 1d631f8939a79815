import DlxOs.Kernel.Completion
import DlxOs.Kernel.Progress

/-!
# Every run of a program can be scheduled

On the kernel the processes of a program only do what its own runs allow. The
converse holds as well: whatever a run of the program does next, timer
interrupts bring its process to the head of the run queue, and the kernel
serves it there, as long as some other process can run while it sleeps.

## Main results

* `hosted_realizes`: every state that the runs of a program reach is reached on
  the kernel.
-/

namespace DlxOs.Kernel

open Queue Monitors Transition

variable {S L C P : Type*} {Loc : P → Type*} {Mem : Type*} {m m' : Machine} {K : KState}
  {p : P} {r z : PcbPtr} {v : Ret} {d : KCall}

/-- Only the order of the run queue has changed. -/
structure Machine.Turned (m m' : Machine) : Prop where
  pending : m'.pending = m.pending
  monitor : m'.kernel.monitor = m.kernel.monitor
  free : m'.kernel.sched.free = m.kernel.sched.free
  run : ∀ q, q ∈ m'.kernel.sched.run ↔ q ∈ m.kernel.sched.run

theorem Machine.Turned.trans {m'' : Machine} (h : m.Turned m') (h' : m'.Turned m'') :
    m.Turned m'' :=
  ⟨h'.pending.trans h.pending, h'.monitor.trans h.monitor, h'.free.trans h.free,
    fun q => (h'.run q).trans (h.run q)⟩

/-- The timer interrupts whoever runs. -/
theorem Machine.Inv.tick_steps (h : m.Inv) {rest : List PcbPtr}
    (hrun : m.kernel.sched.run = r :: rest) : ∃ K, m.Step .tick (m.setKernel K) ∧
      K.sched.run = rest ++ [r] ∧ m.Turned (m.setKernel K) := by
  obtain ⟨h', b', e, -⟩ := h.table.processSchedule_does hrun false
  obtain ⟨q, rest', hrun', hm, hs, -⟩ := h.tick_moves e
  obtain ⟨rfl, rfl⟩ := List.cons.inj (hrun.symm.trans hrun')
  generalize (m.kernel.setCurrent (scheduled false r rest).head?).remake h' b' = K at *
  refine ⟨K, .tick e, by rw [hs], rfl, hm.monitor, (congrArg Sched.free hs :), fun q => ?_⟩
  change q ∈ K.sched.run ↔ _
  rw [hs, hrun]
  simp [or_comm]

/-- Of the others only the timer does anything. -/
def HostedEvent.Alone : HostedEvent P → Prop
  | .elsewhere .tick => True
  | .elsewhere _ => False
  | _ => True

/-- The timer signals no semaphore. -/
theorem HostedEvent.Alone.unsignalled {e : HostedEvent P} (he : e.Alone) (t : SemPtr) :
    e.Unsignalled t := by
  cases e with
  | elsewhere e =>
      cases e with
      | tick => trivial
      | _ => exact he.elim
  | _ => trivial

/-- The runs in which a program has the kernel to itself, but for the timer. -/
abbrev aloneSystem [DecidableEq P] [DecidableEq S] [DecidableEq L] [DecidableEq C]
    (π : Program P S L C Loc Mem) (ν : Handles S L C) (start : Threads P S L C Loc Mem) :
    System (Hosted P Loc Mem) (HostedEvent P) :=
  (hostedSystem π ν start).restrict fun _ e => e.Alone

namespace Hosted

/-- All processes of the program have been forked, and process `z` is another one that can run and
is outside all calls. -/
structure Attended (h : Hosted P Loc Mem) (z : PcbPtr) : Prop where
  forked : ∀ p, ∃ r, h.place p = .runs r
  other : ∀ p, h.place p ≠ .runs z
  runs : z ∈ h.machine.kernel.sched.run
  idle : h.machine.pending z = none

variable {h h' : Hosted P Loc Mem}

theorem Attended.ne (ha : h.Attended z) (there : h.place p = .runs r) : z ≠ r := by
  rintro rfl
  exact ha.other p there

theorem Attended.turned (ha : h.Attended z) (ht : h.machine.Turned m) :
    Attended { h with machine := m } z :=
  ⟨ha.forked, ha.other, (ht.run z).mpr ha.runs, (congrFun ht.pending z).trans ha.idle⟩

/-- Whoever is not served can run as before. -/
theorem Attended.performed (ha : h.Attended z) (there : h.place p = .runs r)
    (hp : Performed h.machine.kernel r d v K) (hplace : h'.place = h.place)
    (hkernel : h'.machine.kernel = K)
    (hpend : h'.machine.pending z = h.machine.pending z) : h'.Attended z := by
  refine ⟨?_, ?_, ?_, hpend.trans ha.idle⟩
  · rw [hplace]
    exact ha.forked
  · rw [hplace]
    exact ha.other
  · rw [hkernel]
    exact hp.run_of_ne ha.runs (ha.ne there)

variable [DecidableEq P] [DecidableEq S] [DecidableEq L] [DecidableEq C]
  {π : Program P S L C Loc Mem} {start : Threads P S L C Loc Mem} {ν : Handles S L C}
  {σ : Session P S L C} {t : Threads P S L C Loc Mem}

variable (π start) in
/-- Timer interrupts give a process that can run its turn. -/
theorem Shown.exists_turn (hσ : h.Shown ν σ) (hr : r ∈ h.machine.kernel.sched.run) :
    ∃ es m, (aloneSystem π ν start).Run h es { h with machine := m } ∧
      Shown ν { h with machine := m } σ ∧ m.kernel.currentPCB = some r ∧ h.machine.Turned m := by
  obtain ⟨xs, ys, hrun⟩ := List.append_of_mem hr
  clear hr
  induction xs generalizing h ys with
  | nil =>
      exact ⟨[], h.machine, .nil h, hσ, by rw [hσ.inv.current, hrun]; rfl, rfl, rfl, rfl,
        fun _ => Iff.rfl⟩
  | cons x xs ih =>
      obtain ⟨K, hs, hK, ht⟩ := hσ.inv.tick_steps hrun
      obtain ⟨es, m, run, hσ', hcur, ht'⟩ := ih (h := { h with machine := h.machine.setKernel K })
        (hσ.elsewhere hs trivial) (ys ++ [x]) (hK.trans (by simp))
      exact ⟨_, m, .cons ⟨.elsewhere hs trivial, trivial⟩ run, hσ', hcur, ht.trans ht'⟩

omit [DecidableEq P] [DecidableEq S] [DecidableEq L] [DecidableEq C] in
/-- A process outside all calls of the program is outside all calls of the machine. -/
theorem Shown.outside (hσ : h.Shown ν σ) (there : h.place p = .runs r)
    (outside : σ.pending p = none) : h.machine.pending r = none := by
  have hv := hσ.hosts.pending p r (pcb_at there)
  rw [outside] at hv
  cases e : h.machine.pending r with
  | none => rfl
  | some x =>
      have hmean := (hσ.inv.inside r x e).1
      simp [Machine.view, e, hmean] at hv

/-- The kernel serves the process of the program that runs. -/
theorem Attended.requests (ha : h.Attended z) (hσ : h.Shown ν σ)
    (coherent : (h.threads σ).Coherent π) {c : Call P S L C} {l : Loc p} {sys : Syscall}
    (quiet : ∀ s, ν.common s → c ≠ .semWait s) (there : h.place p = .runs r)
    (current : h.machine.kernel.currentPCB = some r) (outside : σ.pending p = none)
    (act : π p (h.loc p) = .call c l) (req : ν.request c = some sys) :
    ∃ h' σ', h.Step π ν (.request p) h' ∧ (h.threads σ).Step π p (h'.threads σ') ∧
      h'.Shown ν σ' ∧ h'.Attended z := by
  obtain ⟨d, hd, hc⟩ := ν.request_meaning req
  have hu : h.machine.kernel.inuse d.target = true := by
    rw [ν.call_target hc]
    exact hσ.hosts.inuse' _
  have legal : sys.Legal h.machine.kernel := by cases c <;> cases req <;> trivial
  have active : h.machine.Active r := ⟨current, hσ.outside there outside⟩
  obtain ⟨v, K, hs, hp⟩ := hσ.inv.request_steps active legal hd hu fun _ => by
    refine List.ne_nil_of_mem (a := z) ((List.mem_erase_of_ne (ha.ne there)).mpr ?_)
    rw [Sched.wake_run]
    exact List.mem_append_left _ ha.runs
  obtain ⟨σ', hstep, hσ'⟩ := hσ.request coherent quiet there act req hs
  refine ⟨_, σ', .request there act req hs, hstep, hσ',
    ha.performed there hp ?_ ?_ ?_⟩
  · cases v <;> rfl
  · cases v <;> rfl
  · cases v with
    | returned b => rfl
    | asleep i => exact Function.update_of_ne (ha.ne there) ..

/-- A process of the program that has been woken returns when it runs. -/
theorem Attended.resumes (ha : h.Attended z) (hσ : h.Shown ν σ)
    (coherent : (h.threads σ).Coherent π) {c : Call P S L C} {l : Loc p} {sys : Syscall}
    (there : h.place p = .runs r) (current : h.machine.kernel.currentPCB = some r)
    (inside : σ.pending p = some c) (act : π p (h.loc p) = .call c l)
    (req : ν.request c = some sys) :
    ∃ h' σ', h.Step π ν (.resume p) h' ∧ (h.threads σ).Step π p (h'.threads σ') ∧
      h'.Shown ν σ' ∧ h'.Attended z := by
  obtain ⟨d, -, hc⟩ := ν.request_meaning req
  have hv := hσ.hosts.pending p r (pcb_at there)
  rw [inside, Option.bind_some, hc] at hv
  obtain ⟨⟨sys', i⟩, hpend, -⟩ := Option.bind_eq_some_iff.mp hv
  have hs : h.machine.Step (.resume r sys' syncSuccess)
      ((h.machine.setKernel (h.machine.kernel.setIntrs i)).setPending r none) :=
    .resume current hpend rfl
  obtain ⟨σ', hstep, hσ'⟩ := hσ.resume coherent there act hs
  refine ⟨_, σ', .resume there act hs, hstep, hσ', ha.forked, ha.other, ?_, ?_⟩
  · change z ∈ (h.machine.kernel.setIntrs i).sched.run
    rw [KState.setIntrs_sched]
    exact ha.runs
  · exact (Function.update_of_ne (ha.ne there) ..).trans ha.idle

variable (start) in
/-- Whatever a process of the program does next, the kernel can make it do it next. -/
theorem Attended.realizes (ha : h.Attended z) (hσ : h.Shown ν σ)
    (coherent : (h.threads σ).Coherent π)
    (quiet : ∀ p l s next, ν.common s → π p l ≠ .call (.semWait s) next)
    (asks : ∀ p l c next, π p l = .call c next → ∃ sys, ν.request c = some sys)
    (hs : (h.threads σ).Step π p t) : ∃ es h', (aloneSystem π ν start).Run h es h' ∧
      h'.threads t.session = t ∧ h'.Shown ν t.session ∧ h'.Attended z := by
  obtain ⟨r, there⟩ := ha.forked p
  have hr := hσ.runnable coherent quiet there (hs.awake coherent)
  obtain ⟨es, m, run, hσ, current, turned⟩ := hσ.exists_turn π start hr
  have ha := ha.turned turned
  obtain ⟨e, h', σ', hstep, alone, hs', hσ', ha'⟩ : ∃ e h' σ',
      Step π ν { h with machine := m } e h' ∧ e.Alone ∧ (h.threads σ).Step π p (h'.threads σ') ∧
        h'.Shown ν σ' ∧ h'.Attended z := by
    cases hs with
    | compute outside act =>
        exact ⟨_, _, σ, .compute there ⟨current, hσ.outside there outside⟩ act, trivial,
          .compute outside act, ⟨hσ.inv, hσ.ready, hσ.hosts⟩, ha.forked, ha.other, ha.runs, ha.idle⟩
    | @block c l outside act _ _ =>
        obtain ⟨sys, req⟩ := asks p _ c l act
        obtain ⟨h', σ', hstep, rest⟩ := ha.requests hσ coherent
          (fun s hc e => quiet p _ s l hc (e ▸ act)) there current outside act req
        exact ⟨_, h', σ', hstep, trivial, rest⟩
    | @pass c l _ outside act _ _ =>
        obtain ⟨sys, req⟩ := asks p _ c l act
        obtain ⟨h', σ', hstep, rest⟩ := ha.requests hσ coherent
          (fun s hc e => quiet p _ s l hc (e ▸ act)) there current outside act req
        exact ⟨_, h', σ', hstep, trivial, rest⟩
    | @wake c l inside _ act =>
        obtain ⟨sys, req⟩ := asks p _ c l act
        obtain ⟨h', σ', hstep, rest⟩ := ha.resumes hσ coherent there current inside act req
        exact ⟨_, h', σ', hstep, trivial, rest⟩
  obtain rfl := hs.unique hs'
  exact ⟨_, h', run.append (.single ⟨hstep, alone⟩), rfl, hσ', ha'⟩

/-- The processes of `A` have been forked, and nobody of the program has run yet. -/
structure Forking (ν : Handles S L C) (start : Threads P S L C Loc Mem) (A : Finset P) (z : PcbPtr)
    (h : Hosted P Loc Mem) : Prop where
  shown : h.Shown ν start.session
  loc : h.loc = start.loc
  mem : h.mem = start.mem
  forked : ∀ p ∈ A, ∃ r, h.place p = .runs r
  unborn : ∀ p ∉ A, h.place p = .unborn
  other : ∀ p, h.place p ≠ .runs z
  runs : z ∈ h.machine.kernel.sched.run
  idle : h.machine.pending z = none

omit [DecidableEq P] in
theorem Begins.forking (hb : h.Begins ν start) (fresh : start.Fresh)
    (runs : z ∈ h.machine.kernel.sched.run) (idle : h.machine.pending z = none) :
    h.Forking ν start ∅ z := by
  refine ⟨hb.shown fresh, hb.loc, hb.mem, by simp, fun p _ => hb.unborn p, fun p hp => ?_, runs,
    idle⟩
  rw [hb.unborn p] at hp
  cases hp

omit [DecidableEq S] [DecidableEq L] [DecidableEq C] in
/-- One more process is forked. -/
theorem Forking.fork {A : Finset P} (hf : h.Forking ν start A z) (hp : p ∉ A) {rest : List PcbPtr}
    (hfree : h.machine.kernel.sched.free = r :: rest) : ∃ h', h.Step π ν (.born p) h' ∧
      h'.Forking ν start (insert p A) z ∧ h'.machine.kernel.sched.free = rest := by
  obtain ⟨K, hs, -, hK, -⟩ := hf.shown.inv.fork_steps hfree (a := ⟨1, 1, none⟩) (by simp) (by simp)
    (by simp)
  have hrun : z ∈ K.sched.run := by
    rw [hK]
    exact List.mem_append_left _ hf.runs
  refine ⟨_, .born (hf.unborn p hp) hs, ⟨hf.shown.born (hf.unborn p hp) hs, hf.loc, hf.mem,
    fun q hq => ?_, fun q hq => ?_, fun q hq => ?_, hrun, hf.idle⟩, congrArg Sched.free hK⟩
  · by_cases e : q = p
    · exact ⟨r, by simp [setPlace, e]⟩
    · obtain ⟨t, ht⟩ := hf.forked q (Finset.mem_of_mem_insert_of_ne hq e)
      exact ⟨t, by simpa [setPlace, e] using ht⟩
  · rw [Finset.mem_insert, not_or] at hq
    simpa [setPlace, hq.1] using hf.unborn q hq.2
  · by_cases e : q = p
    · obtain rfl : r = z := by simpa [setPlace, e] using hq
      exact hf.shown.inv.table.not_free (.inl hf.runs) (by
        rw [hfree]
        exact List.mem_cons_self)
    · exact hf.other q (by simpa [setPlace, e] using hq)

/-- All processes are forked if there are PCBs for them. -/
theorem Forking.fork_all (hf : h.Forking ν start ∅ z) (A : Finset P)
    (room : A.card ≤ h.machine.kernel.sched.free.length) :
    ∃ es h', (aloneSystem π ν start).Run h es h' ∧ h'.Forking ν start A z ∧
      h'.machine.kernel.sched.free.length + A.card = h.machine.kernel.sched.free.length := by
  induction A using Finset.induction_on with
  | empty => exact ⟨[], h, .nil h, hf, by simp⟩
  | @insert p A hp ih =>
      rw [Finset.card_insert_of_notMem hp] at room ⊢
      obtain ⟨es, h', run, hf', hlen⟩ := ih (by omega)
      cases hfree : h'.machine.kernel.sched.free with
      | nil =>
          rw [hfree, List.length_nil] at hlen
          omega
      | cons r rest =>
          obtain ⟨h'', hs, hf'', hfree'⟩ := hf'.fork (π := π) hp hfree
          refine ⟨_, h'', run.append (.single ⟨hs, trivial⟩), hf'', ?_⟩
          rw [hfree']
          rw [hfree, List.length_cons] at hlen
          omega

end Hosted

section Unshared

variable [DecidableEq P] {π : Program P S L C Loc Mem} {ν : Handles S L C} {h h' : Hosted P Loc Mem}

/-- The same objects, none of them common. -/
def Handles.unshared (ν : Handles S L C) : Handles S L C := { ν with common := fun _ => False }

omit [DecidableEq P] in
theorem Hosted.Begins.unshared [DecidableEq S] [DecidableEq L] [DecidableEq C]
    {start : Threads P S L C Loc Mem} (hb : h.Begins ν start) : h.Begins ν.unshared start :=
  ⟨hb.reach, hb.unborn, hb.loc, hb.mem, hb.used, hb.uncalled, hb.waiting, hb.count, hb.owner,
    hb.bound⟩

/-- Alone on the kernel a program does the same whatever others might use. -/
theorem Hosted.Step.shared {e : HostedEvent P} (hs : h.Step π ν.unshared e h') (alone : e.Alone) :
    h.Step π ν e h' := by
  cases hs with
  | @elsewhere e m hs he =>
      cases e with
      | tick => exact .elsewhere hs trivial
      | _ => exact alone.elim
  | born unborn hs => exact .born unborn hs
  | compute there active act => exact .compute there active act
  | @request p r c l sys v m there act req hs =>
      exact .request there act (show ν.request c = some sys by cases c <;> exact req) hs
  | resume there act hs => exact .resume there act hs
  | exit there act hs => exact .exit there act hs

theorem Hosted.shared_run [DecidableEq S] [DecidableEq L] [DecidableEq C]
    {start : Threads P S L C Loc Mem} {es : List (HostedEvent P)}
    (run : (aloneSystem π ν.unshared start).Run h es h') : (aloneSystem π ν start).Run h es h' := by
  induction run with
  | nil h => exact .nil h
  | cons first _ ih => exact .cons ⟨first.1.shared first.2, first.2⟩ ih

end Unshared

section Realization

variable [DecidableEq P] [DecidableEq S] [DecidableEq L] [DecidableEq C] [Fintype P]
  {π : Program P S L C Loc Mem} {start s : Threads P S L C Loc Mem} {ν : Handles S L C}
  {h : Hosted P Loc Mem}

/-- Whatever the processes of a program can do in one of its runs they can do on the kernel, if
there are PCBs for them and another process can run. -/
theorem hosted_realizes (fresh : start.Fresh)
    (quiet : ∀ p l s next, ν.common s → π p l ≠ .call (.semWait s) next)
    (asks : ∀ p l c next, π p l = .call c next → ∃ sys, ν.request c = some sys)
    (hb : h.Begins ν start) (runs : z ∈ h.machine.kernel.sched.run)
    (idle : h.machine.pending z = none)
    (room : Fintype.card P ≤ h.machine.kernel.sched.free.length)
    (hr : (π.system start).Reachable s) : ∃ es h', (aloneSystem π ν start).Run h es h' ∧
      h'.threads s.session = s ∧ h'.Shown ν s.session ∧ h'.Attended z := by
  induction hr with
  | @init s e =>
      obtain rfl : s = start := e
      obtain ⟨es, h', run, hf, -⟩ := (hb.forking fresh runs idle).fork_all (π := π) Finset.univ room
      refine ⟨es, h', run, ?_, hf.shown,
        fun p => hf.forked p (Finset.mem_univ p), hf.other, hf.runs, hf.idle⟩
      change Threads.mk _ _ _ = s
      rw [hf.loc, hf.mem]
  | @step s p t tail hs ih =>
      obtain ⟨es, h', run, e, hσ, ha⟩ := ih
      have coherent := Threads.reachable_coherent fresh tail
      rw [← e] at coherent hs
      obtain ⟨es', h'', run', e', hσ', ha'⟩ := ha.realizes start hσ coherent quiet asks hs
      exact ⟨_, h'', run.append run', e', hσ', ha'⟩

/-- If a run of a program can bring all its processes to their end or to sleep, a run on the kernel
can do so, and nobody wakes them any more. -/
theorem hosted_stalls (fresh : start.Fresh)
    (quiet : ∀ p l s next, ν.common s → π p l ≠ .call (.semWait s) next)
    (lets : ∀ s, (π.system start).Reachable s → ∀ p, π p (s.loc p) = .stop →
      ∀ k, s.session.mon.owner k ≠ some p)
    (asks : ∀ p l c next, π p l = .call c next → ∃ sys, ν.request c = some sys)
    (hb : h.Begins ν start) (runs : z ∈ h.machine.kernel.sched.run)
    (idle : h.machine.pending z = none)
    (room : Fintype.card P ≤ h.machine.kernel.sched.free.length)
    (hr : (π.system start).Reachable s)
    (stuck : ∀ p, π p (s.loc p) = .stop ∨ ¬ s.session.Awake p) :
    ∃ es h', (aloneSystem π ν start).Run h es h' ∧ h'.loc = s.loc ∧
      ∀ es' h'', (hostedSystem π ν start).Run h' es' h'' → h''.loc = s.loc ∧
        ∀ p, π p (s.loc p) ≠ .stop →
          ∃ r w, h''.place p = .runs r ∧ r ∈ h''.machine.kernel.monitor.waiting (ν.point w) := by
  obtain ⟨es, h', run, e, hσ, -⟩ := hosted_realizes fresh quiet asks hb runs idle room hr
  have hloc : h'.loc = s.loc := congrArg Threads.loc e
  refine ⟨es, h', run, hloc, fun es' h'' run' => ?_⟩
  have stalled : h'.Stalled π s.session := by
    rw [Hosted.Stalled, hloc]
    exact stuck
  obtain ⟨hσ', e'⟩ := stalled.run fresh quiet lets (e.symm ▸ hr) hσ run'
  exact ⟨(congrArg Threads.loc e').trans hloc,
    fun p hp => hσ'.asleep ((stuck p).resolve_left hp)⟩

/-- As soon as a run of the program makes a semaphore positive, another process can get through a
wait on it. -/
theorem hosted_returns (fresh : start.Fresh)
    (asks : ∀ p l c next, π p l = .call c next → ∃ sys, ν.request c = some sys)
    (hb : h.Begins ν start) (runs : z ∈ h.machine.kernel.sched.run)
    (idle : h.machine.pending z = none)
    (room : Fintype.card P ≤ h.machine.kernel.sched.free.length)
    (hr : (π.system start).Reachable s) {t : S} (positive : 0 < s.session.mon.count t) :
    ∃ es h' e m, (aloneSystem π ν start).Run h es h' ∧ h'.loc = s.loc ∧ h'.mem = s.mem ∧
      h'.machine.Step e m ∧ e.GetsThrough (ν.sem t) := by
  obtain ⟨es, h', run, e, hσ, ha⟩ := hosted_realizes (ν := ν.unshared) fresh (fun _ _ _ _ => nofun)
    asks hb.unshared runs idle room hr
  obtain ⟨es', m, run', hσ', current, turned⟩ := hσ.exists_turn π start ha.runs
  have count : 0 < m.kernel.monitor.count (ν.sem t) := by
    rw [show m.kernel.monitor.count (ν.sem t) = _ from hσ'.hosts.count t id]
    exact positive
  have pass : m.kernel.monitor.call z (.semWait (ν.sem t)) = (.returned true,
      m.kernel.monitor.setCount (ν.sem t) (m.kernel.monitor.count (ν.sem t) - 1)) :=
    if_neg (not_le.mpr count)
  obtain ⟨v, K, hs, hp⟩ := hσ'.inv.request_steps (p := z) (c := .semWait (ν.sem t).val)
    (d := .semWait (ν.sem t)) ⟨current, (congrFun turned.pending z).trans ha.idle⟩ trivial
    (by simp [Syscall.meaning])
    (hσ'.hosts.inuse' (.sem t)) fun hb => by rw [pass] at hb; cases hb
  refine ⟨_, _, _, _, Hosted.shared_run (run.append run'), congrArg Threads.loc e,
    congrArg Threads.mem e, hs, ?_⟩
  have hv : v.outcome = .returned true := (congrArg Prod.fst (hp.call.symm.trans pass) :)
  cases v with
  | returned b =>
      exact ⟨by simp [Syscall.meaning], of_decide_eq_true (Outcome.returned.inj hv)⟩
  | asleep i => cases hv

end Realization

end DlxOs.Kernel
