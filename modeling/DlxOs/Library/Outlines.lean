import DlxOs.Library.Discipline

/-!
# Proof outlines for monitors

An outline says what holds while the lock is free, what a signaller promises
to the process it wakes, and what the process inside relies on at each local
state. Since a signal hands the lock to the woken process at once, the promise
still holds when that process returns from its wait.
-/

namespace DlxOs.Monitors

open Monitor Session Threads Transition

variable {P S L C : Type*} {Loc : P → Type*} {Mem : Type*}

/-- Assertions about the memory and the processes asleep at the condition variables. -/
structure Outline (P C : Type*) (Loc : P → Type*) (Mem : Type*) where
  free : Mem → (C → List P) → Prop
  woken : C → Mem → (C → List P) → Prop
  pre : (p : P) → Loc p → Mem → (C → List P) → Prop

/-- The processes asleep at each condition variable. -/
def Monitor.asleep (m : Monitor P S L C) (c : C) : List P := m.waiting (.cond c)

def Threads.asleep (s : Threads P S L C Loc Mem) : C → List P := s.session.mon.asleep

variable [DecidableEq P] [DecidableEq S] [DecidableEq L] [DecidableEq C]

section Asleep

variable (m : Monitor P S L C) (p : P) (ps : List P) (s : S) (k : L) (c : C)

omit [DecidableEq P] in
@[simp] theorem asleep_enqueue_sem : (m.enqueue (.sem s) p).asleep = m.asleep :=
  funext fun _ => setWaiting_of_ne _ _ _ _ (by simp)

omit [DecidableEq P] in
@[simp] theorem asleep_enqueue_lock : (m.enqueue (.lock k) p).asleep = m.asleep :=
  funext fun _ => setWaiting_of_ne _ _ _ _ (by simp)

omit [DecidableEq P] in
@[simp] theorem asleep_setWaiting_sem : (m.setWaiting (.sem s) ps).asleep = m.asleep :=
  funext fun _ => setWaiting_of_ne _ _ _ _ (by simp)

omit [DecidableEq P] in
@[simp] theorem asleep_setWaiting_lock : (m.setWaiting (.lock k) ps).asleep = m.asleep :=
  funext fun _ => setWaiting_of_ne _ _ _ _ (by simp)

omit [DecidableEq P] in
@[simp] theorem asleep_setWaiting_cond :
    (m.setWaiting (.cond c) ps).asleep = Function.update m.asleep c ps := by
  funext d
  by_cases e : d = c
  · subst e
    simp [Monitor.asleep]
  · rw [Function.update_of_ne e, Monitor.asleep, setWaiting_of_ne _ _ _ _ (by simpa using e)]
    rfl

omit [DecidableEq P] in
@[simp] theorem asleep_enqueue_cond :
    (m.enqueue (.cond c) p).asleep = Function.update m.asleep c (m.asleep c ++ [p]) :=
  asleep_setWaiting_cond ..

omit [DecidableEq P] [DecidableEq L] [DecidableEq C] in
@[simp] theorem asleep_setCount (n : Int) : (m.setCount s n).asleep = m.asleep := rfl

omit [DecidableEq P] [DecidableEq S] [DecidableEq C] in
@[simp] theorem asleep_setOwner (o : Option P) : (m.setOwner k o).asleep = m.asleep := rfl

omit [DecidableEq P] in
@[simp] theorem asleep_handOver : (m.handOver k).asleep = m.asleep := by
  rw [handOver]
  split <;> simp

end Asleep

/-- What has to be shown of each kind of action. -/
structure Outline.Valid (O : Outline P C Loc Mem) (π : Program P S L C Loc Mem) (k : L)
    (start : Threads P S L C Loc Mem) : Prop where
  init : O.free start.mem start.asleep
  enter : ∀ s p l, (π.system start).Reachable s → π p (s.loc p) = .call (.acquire k) l →
    O.free s.mem s.asleep → O.pre p l s.mem s.asleep
  exit : ∀ s p l, (π.system start).Reachable s → π p (s.loc p) = .call (.release k) l →
    O.pre p (s.loc p) s.mem s.asleep → O.free s.mem s.asleep
  wait : ∀ s p c l, (π.system start).Reachable s → s.session.pending p = none →
    π p (s.loc p) = .call (.wait c) l → O.pre p (s.loc p) s.mem s.asleep →
      O.free s.mem (Function.update s.asleep c (s.asleep c ++ [p]))
  waited : ∀ s p c l, (π.system start).Reachable s → π p (s.loc p) = .call (.wait c) l →
    O.woken c s.mem s.asleep → O.pre p l s.mem s.asleep
  signal : ∀ s p c l q rest, (π.system start).Reachable s → π p (s.loc p) = .call (.signal c) l →
    O.pre p (s.loc p) s.mem s.asleep → s.asleep c = q :: rest →
      O.woken c s.mem (Function.update s.asleep c rest)
  signalled : ∀ s p c l, (π.system start).Reachable s → π p (s.loc p) = .call (.signal c) l →
    O.free s.mem s.asleep → O.pre p l s.mem s.asleep
  unheard : ∀ s p c l, (π.system start).Reachable s → π p (s.loc p) = .call (.signal c) l →
    O.pre p (s.loc p) s.mem s.asleep → s.asleep c = [] → O.pre p l s.mem s.asleep
  sem : ∀ s p c l t, (π.system start).Reachable s → π p (s.loc p) = .call c l →
    c.target = .sem t → O.pre p (s.loc p) s.mem s.asleep → O.pre p l s.mem s.asleep
  compute : ∀ s p f, (π.system start).Reachable s → s.session.mon.owner k = some p →
    π p (s.loc p) = .compute f → O.pre p (s.loc p) s.mem s.asleep →
      O.pre p (f s.mem).1 (f s.mem).2 s.asleep

namespace Outline

/-- What the owner of the lock may rely on. -/
def At (O : Outline P C Loc Mem) (s : Threads P S L C Loc Mem) (p : P) : Prop :=
  match s.session.pending p with
  | some (.acquire _) => O.free s.mem s.asleep
  | some (.signal _) => O.free s.mem s.asleep
  | some (.wait c) => O.woken c s.mem s.asleep
  | _ => O.pre p (s.loc p) s.mem s.asleep

structure Holds (O : Outline P C Loc Mem) (k : L) (s : Threads P S L C Loc Mem) : Prop where
  free : s.session.mon.owner k = none → O.free s.mem s.asleep
  owner : ∀ p, s.session.mon.owner k = some p → O.At s p

variable {O : Outline P C Loc Mem} {π : Program P S L C Loc Mem}
  {s s' start : Threads P S L C Loc Mem} {p q : P} {k : L} {holds : (p : P) → Loc p → Prop}

omit [DecidableEq P] [DecidableEq S] [DecidableEq L] [DecidableEq C] in
theorem At.congr {t : Threads P S L C Loc Mem} (ha : O.At s q)
    (hp : t.session.pending q = s.session.pending q) (hl : t.loc q = s.loc q)
    (hm : t.mem = s.mem) (hw : t.asleep = s.asleep) : O.At t q := by
  simpa only [At, hp, hl, hm, hw] using ha

omit [DecidableEq P] [DecidableEq S] [DecidableEq L] [DecidableEq C] in
theorem At.of_outside (hp : s.session.pending q = none) (h : O.pre q (s.loc q) s.mem s.asleep) :
    O.At s q := by
  simpa only [At, hp] using h

omit [DecidableEq P] [DecidableEq S] [DecidableEq L] [DecidableEq C] in
theorem At.of_sem {u : S} (hp : s.session.pending q = some (.semWait u))
    (h : O.pre q (s.loc q) s.mem s.asleep) : O.At s q := by
  simpa only [At, hp] using h

omit [DecidableEq P] [DecidableEq S] [DecidableEq L] [DecidableEq C] in
/-- Whoever is let in from the queue of the lock finds what holds while the lock is free. -/
theorem At.of_queue {c : Call P S L C} (hp : s.session.pending q = some c)
    (hc : s.session.mon.point c = some (.lock k)) (hf : O.free s.mem s.asleep) : O.At s q := by
  cases c with
  | acquire j => simpa only [At, hp] using hf
  | signal d => simpa only [At, hp] using hf
  | _ => cases hc

omit [DecidableEq P] [DecidableEq S] [DecidableEq L] [DecidableEq C] in
/-- After a hand-off to the queue of the lock it is enough that the assertion of the free lock
holds. -/
theorem Holds.of_free (hf : O.free s.mem s.asleep) (hq : ∀ q, s.session.mon.owner k = some q →
    ∃ c, s.session.pending q = some c ∧ s.session.mon.point c = some (.lock k)) : O.Holds k s := by
  constructor
  · intro _
    exact hf
  · intro q ho
    obtain ⟨c, hp, hc⟩ := hq q ho
    exact .of_queue hp hc hf

omit [DecidableEq S] [DecidableEq L] [DecidableEq C] in
/-- A step that changes neither the owner nor who sleeps at the condition variables keeps what
the others rely on. -/
theorem Holds.keep (ho : O.Holds k s) {t : Threads P S L C Loc Mem}
    (hown : t.session.mon.owner k = s.session.mon.owner k) (hmem : t.mem = s.mem)
    (hw : t.asleep = s.asleep) (hl : ∀ q, q ≠ p → t.loc q = s.loc q)
    (hpend : ∀ q, q ≠ p → t.session.pending q = s.session.pending q)
    (hself : s.session.mon.owner k = some p → O.At s p → O.At t p) : O.Holds k t := by
  constructor
  · intro hn
    rw [hmem, hw]
    exact ho.free (hown.symm.trans hn)
  · intro q hq
    rw [hown] at hq
    by_cases e : q = p
    · subst e
      exact hself hq (ho.owner q hq)
    · exact (ho.owner q hq).congr (hpend q e) (hl q e) hmem hw

/-- A call keeps the outline, whether it sleeps or returns. -/
theorem Holds.call (ho : O.Holds k s) (hv : O.Valid π k start) (hr : (π.system start).Reachable s)
    (hs : s.Coherent π) (hd : π.Disciplined k holds) (hg : s.Guarded k holds)
    (hb : ∀ c, s.session.mon.bound c = k) {c : Call P S L C} {l : Loc p} {r : Outcome}
    (outside : s.session.pending p = none) (act : π p (s.loc p) = .call c l)
    {t : Threads P S L C Loc Mem} (hc : CallCase s.session.mon p c r t.session.mon)
    (hmem : t.mem = s.mem) (hl : ∀ q, q ≠ p → t.loc q = s.loc q)
    (hpend : ∀ q, q ≠ p → t.session.pending q = s.session.pending q)
    (blocked : r = .blocked → t.session.pending p = some c ∧ t.loc p = s.loc p)
    (returned : r ≠ .blocked → t.session.pending p = none ∧ t.loc p = l) : O.Holds k t := by
  have hobey := hd p (s.loc p)
  rw [act] at hobey
  have hpre : s.session.mon.owner k = some p → O.pre p (s.loc p) s.mem s.asleep := fun h => by
    simpa only [At, outside] using ho.owner p h
  have hin : holds p (s.loc p) → s.session.mon.owner k = some p := fun h => by
    simpa only [hg p, Threads.Inside, outside] using h
  have hqueue : ∀ q ∈ s.session.mon.waiting (.lock k), ∃ d, t.session.pending q = some d ∧
      s.session.mon.point d = some (.lock k) := by
    intro q hq
    obtain ⟨d, hd, e⟩ := hs.sound.pending _ q hq
    have hne : q ≠ p := by
      rintro rfl
      exact hs.sound.awake outside _ hq
    exact ⟨d, (hpend q hne).trans hd, e⟩
  have hpoint : t.session.mon.point = s.session.mon.point := by
    funext d
    cases d <;> simp [Monitor.point, hc.bound_eq]
  have entered : ∀ q rest, s.session.mon.waiting (.lock k) = q :: rest → ∃ d,
      t.session.pending q = some d ∧ t.session.mon.point d = some (.lock k) := by
    intro q rest h
    rw [hpoint]
    exact hqueue q (by simp [h])
  obtain ⟨⟨m, pend, used⟩, loc, mem⟩ := t
  obtain rfl : mem = s.mem := hmem
  dsimp only at *
  cases hc with
  | semSleep u h =>
      obtain ⟨hp, hl'⟩ := blocked rfl
      refine ho.keep rfl rfl (asleep_enqueue_sem ..) hl hpend fun h _ => .of_sem hp ?_
      simpa only [Threads.asleep, asleep_enqueue_sem, hl'] using hpre h
  | semTake u h =>
      obtain ⟨hp, hl'⟩ := returned (by simp)
      refine ho.keep rfl rfl rfl hl hpend fun h _ => .of_outside hp ?_
      simpa only [Threads.asleep, asleep_setCount, hl'] using
        hv.sem s p _ l u hr act rfl (hpre h)
  | semCount u h =>
      obtain ⟨hp, hl'⟩ := returned (by simp)
      refine ho.keep rfl rfl rfl hl hpend fun h _ => .of_outside hp ?_
      simpa only [Threads.asleep, asleep_setCount, hl'] using
        hv.sem s p _ l u hr act rfl (hpre h)
  | semWake u h hw =>
      obtain ⟨hp, hl'⟩ := returned (by simp)
      refine ho.keep rfl rfl (asleep_setWaiting_sem ..) hl hpend fun h _ => .of_outside hp ?_
      simpa only [Threads.asleep, asleep_setWaiting_sem, hl'] using
        hv.sem s p _ l u hr act rfl (hpre h)
  | acquireOwned j h =>
      obtain ⟨rfl, hn, -⟩ := hobey
      exact absurd (by simpa only [hg p, Threads.Inside, outside] using h) hn
  | acquireFree j h =>
      obtain ⟨rfl, -, -⟩ := hobey
      obtain ⟨hp, hl'⟩ := returned (by simp)
      constructor
      · intro hn
        rw [setOwner_self] at hn
        cases hn
      · intro q hq
        obtain rfl : p = q := Option.some.inj ((setOwner_self ..).symm.trans hq)
        refine .of_outside hp ?_
        simpa only [Threads.asleep, asleep_setOwner, hl'] using hv.enter s p l hr act (ho.free h)
  | acquireSleep j h hne =>
      obtain ⟨rfl, -, -⟩ := hobey
      refine ho.keep rfl rfl (asleep_enqueue_lock ..) hl hpend fun hp _ => ?_
      exact absurd (Option.some.inj (h.symm.trans hp)) hne
  | releaseRefused j h =>
      obtain ⟨rfl, hh, -⟩ := hobey
      exact absurd (hin hh) h
  | release j h =>
      obtain ⟨rfl, hh, -⟩ := hobey
      refine .of_free ?_ fun q hq => ?_
      · simpa only [Threads.asleep, asleep_handOver] using hv.exit s p l hr act (hpre h)
      · obtain ⟨rest, hw⟩ := waiting_of_handOver hq
        exact entered q rest hw
  | transferRefused j o h => exact hobey.elim
  | transfer j o h => exact hobey.elim
  | waitRefused d h => exact absurd (hb d ▸ hin hobey.1) h
  | wait d h =>
      rw [hb d] at *
      refine .of_free ?_ fun q hq => ?_
      · simpa only [Threads.asleep, asleep_handOver, asleep_enqueue_cond] using
          hv.wait s p d l hr outside act (hpre h)
      · obtain ⟨rest, hw⟩ := waiting_of_handOver hq
        rw [enqueue_of_ne _ _ _ _ (by simp)] at hw
        exact entered q rest hw
  | signalRefused d h => exact absurd (hb d ▸ hin hobey.1) h
  | signalNone d h hw =>
      obtain ⟨hp, hl'⟩ := returned (by simp)
      refine ho.keep rfl rfl rfl hl hpend fun h _ => .of_outside hp ?_
      simpa only [Threads.asleep, hl'] using hv.unheard s p d l hr act (hpre h) hw
  | @signal d q rest h hw =>
      rw [hb d] at *
      constructor
      · intro hn
        simp at hn
      · intro q' hq
        obtain rfl : q = q' := by simpa using hq
        have hm : q ∈ s.session.mon.waiting (.cond d) := by simp [hw]
        obtain ⟨d', hd', e⟩ := hs.sound.pending _ q hm
        have hne : q ≠ p := by
          rintro rfl
          exact hs.sound.awake outside _ hm
        obtain rfl : d' = .wait d := by
          cases d' <;> simp [Monitor.point] at e ⊢
          exact e
        simpa only [At, (hpend q hne).trans hd', Threads.asleep, asleep_enqueue_lock,
          asleep_setOwner, asleep_setWaiting_cond] using
          hv.signal s p d l q rest hr act (hpre h) hw

/-- Every step keeps the outline. -/
theorem Holds.step (ho : O.Holds k s) (hv : O.Valid π k start) (hr : (π.system start).Reachable s)
    (hs : s.Coherent π) (hd : π.Disciplined k holds) (hg : s.Guarded k holds)
    (hb : ∀ c, s.session.mon.bound c = k) (h : s.Step π p s') : O.Holds k s' := by
  cases h with
  | @compute f outside act =>
      have hobey := hd p (s.loc p)
      rw [act] at hobey
      by_cases hh : holds p (s.loc p)
      · have hown : s.session.mon.owner k = some p := by
          simpa only [hg p, Threads.Inside, outside] using hh
        constructor
        · intro hn
          rw [show s.session.mon.owner k = none from hn] at hown
          cases hown
        · intro q hq
          obtain rfl : p = q := Option.some.inj (hown.symm.trans hq)
          have hat := ho.owner p hown
          simp only [At, outside] at hat
          refine .of_outside outside ?_
          change O.pre p ((s.setLoc p (f s.mem).1).loc p) (f s.mem).2 s.asleep
          rw [setLoc_self]
          exact hv.compute s p f hr hown act hat
      · have hmem : (f s.mem).2 = s.mem := (hobey s.mem).2.resolve_left hh
        refine ho.keep rfl hmem rfl (fun q hq => setLoc_of_ne _ _ hq) (fun q _ => rfl) fun h _ => ?_
        exact absurd (by simpa only [hg p, Threads.Inside, outside] using h) hh
  | @block c l outside act used blocked =>
      refine ho.call hv hr hs hd hg hb outside act (call_cases _ _ _) rfl (fun _ _ => rfl)
        (fun q hq => perform_pending_of_ne _ _ hq) (fun _ => ⟨?_, rfl⟩) fun h => absurd blocked h
      simp [perform, blocked]
  | @pass c l r outside act used returned =>
      refine ho.call hv hr hs hd hg hb outside act (call_cases _ _ _) rfl
        (fun q hq => setLoc_of_ne _ _ hq) (fun q hq => perform_pending_of_ne _ _ hq)
        (fun h => ?_) fun _ => ⟨?_, setLoc_self ..⟩
      · rw [returned] at h
        cases h
      · simpa [perform, returned] using outside
  | @wake c l inside awake act =>
      refine ho.keep rfl rfl rfl (fun q hq => setLoc_of_ne _ _ hq)
        (fun q hq => Function.update_of_ne hq ..) fun hown hat => ?_
      refine .of_outside (by simp [finish]) ?_
      simp only [At, inside] at hat
      simp only [setLoc_self]
      cases c with
      | semWait u => exact hv.sem s p _ l u hr act rfl hat
      | acquire j =>
          have hobey := hd p (s.loc p)
          rw [act] at hobey
          obtain ⟨rfl, -, -⟩ := hobey
          exact hv.enter s p l hr act hat
      | wait d => exact hv.waited s p d l hr act hat
      | signal d => exact hv.signalled s p d l hr act hat
      | _ => exact absurd rfl (hs.sound.sleeps p _ inside)

/-- In every reachable state the free lock and its owner have what the outline says. -/
theorem Valid.reachable_holds (hv : O.Valid π k start) (fresh : start.Fresh)
    (hd : π.Disciplined k holds) (hb : ∀ c, start.session.mon.bound c = k)
    (h0 : ∀ p, ¬ holds p (start.loc p)) (h : (π.system start).Reachable s) : O.Holds k s := by
  refine h.invariant (P := O.Holds k) (fun t (e : t = start) => ?_) fun t p t' hr ih h => ?_
  · subst e
    refine ⟨fun _ => hv.init, fun p hp => ?_⟩
    simp [fresh.owner] at hp
  · refine ih.step hv hr (reachable_coherent fresh hr) hd (reachable_guarded fresh hd hb h0 hr)
      (fun c => ?_) h
    rw [(reachable_fixed fresh hr).1, hb]

omit [DecidableEq P] [DecidableEq S] [DecidableEq L] [DecidableEq C] in
/-- Who is inside the critical section and outside all calls has what the outline says. -/
theorem Holds.inside (ho : O.Holds k s) (hg : s.Guarded k holds)
    (outside : s.session.pending p = none) (hh : holds p (s.loc p)) :
    O.pre p (s.loc p) s.mem s.asleep := by
  have hown : s.session.mon.owner k = some p := by
    simpa only [hg p, Threads.Inside, outside] using hh
  simpa only [At, outside] using ho.owner p hown

end Outline

/-! ### Outlines about the memory alone -/

/-- The action keeps a memory invariant `I`, promises `Q` to those it wakes and keeps what the
process inside relies on. -/
def Action.Respects {Loc : Type*} (I : Mem → Prop) (Q : C → Mem → Prop) (R : Loc → Mem → Prop)
    (l : Loc) : Action P S L C Loc Mem → Prop
  | .call (.acquire _) l' => ∀ x, I x → R l' x
  | .call (.wait c) l' => ∀ x, I x → Q c x → R l' x
  | .call (.signal c) l' => ∀ x, I x → R l' x ∧ (R l x → Q c x)
  | .call (.semWait _) l' => ∀ x, I x → R l x → R l' x
  | .call (.semSignal _) l' => ∀ x, I x → R l x → R l' x
  | .compute f => ∀ x, I x → R l x → I (f x).2 ∧ R (f x).1 (f x).2
  | _ => True

/-- The outline of a memory invariant. -/
def Outline.ofMemory (I : Mem → Prop) (Q : C → Mem → Prop) (R : (p : P) → Loc p → Mem → Prop) :
    Outline P C Loc Mem where
  free x _ := I x
  woken c x _ := I x ∧ Q c x
  pre p l x _ := I x ∧ R p l x

omit [DecidableEq P] [DecidableEq S] [DecidableEq L] [DecidableEq C] in
/-- The invariant holds whether the lock is free or owned. -/
theorem Outline.Holds.memory {I : Mem → Prop} {Q : C → Mem → Prop}
    {R : (p : P) → Loc p → Mem → Prop} {k : L} {s : Threads P S L C Loc Mem}
    (h : (Outline.ofMemory I Q R).Holds k s) : I s.mem := by
  cases ho : s.session.mon.owner k with
  | none => exact h.free ho
  | some p =>
      have ha := h.owner p ho
      rw [Outline.At] at ha
      split at ha
      · exact ha
      · exact ha
      · exact ha.1
      · exact ha.1

theorem Outline.ofMemory_valid {π : Program P S L C Loc Mem} {I : Mem → Prop} {Q : C → Mem → Prop}
    {R : (p : P) → Loc p → Mem → Prop} {k : L} {start : Threads P S L C Loc Mem}
    (h0 : I start.mem) (h : ∀ p l, (π p l).Respects I Q (R p) l) :
    (Outline.ofMemory I Q R).Valid π k start := by
  have respects : ∀ {s : Threads P S L C Loc Mem} {p : P} {a}, π p (s.loc p) = a →
      a.Respects I Q (R p) (s.loc p) := fun e => e ▸ h _ _
  constructor
  case init => exact h0
  case enter => exact fun s p l _ act hf => ⟨hf, respects act s.mem hf⟩
  case exit => exact fun s p l _ act hp => hp.1
  case wait => exact fun s p c l _ _ act hp => hp.1
  case waited => exact fun s p c l _ act hw => ⟨hw.1, respects act s.mem hw.1 hw.2⟩
  case signal => exact fun s p c l q rest _ act hp _ => ⟨hp.1, (respects act s.mem hp.1).2 hp.2⟩
  case signalled => exact fun s p c l _ act hf => ⟨hf, (respects act s.mem hf).1⟩
  case unheard => exact fun s p c l _ act hp _ => ⟨hp.1, (respects act s.mem hp.1).1⟩
  case sem =>
    intro s p c l t _ act hc hp
    have hr := respects act
    cases c with
    | semWait u => exact ⟨hp.1, hr s.mem hp.1 hp.2⟩
    | semSignal u => exact ⟨hp.1, hr s.mem hp.1 hp.2⟩
    | _ => cases hc
  case compute => exact fun s p f _ _ act hp => respects act s.mem hp.1 hp.2

end DlxOs.Monitors
