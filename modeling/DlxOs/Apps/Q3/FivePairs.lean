import DlxOs.Apps.Q3.Deadlock

/-!
# Five pairs

A run of five pairs or more that ends with everybody stuck. In each round a
producer inserts an item and the consumer with the same number removes it.
After 32 rounds the head slot holds the first item again, and a consumer that
has done nothing so far takes it for its own.
-/

namespace DlxOs.Apps.Q3

open Monitors Monitor Session Interleavings

variable {N : ℕ} {count count' : Sem → ℤ} {o o' : Option (Child N)} {loc : (p : Child N) → Loc N p}
  {mem : SharedBuffer × Record N} {p : Child N} {l l' : Loc N p}

/-- Nobody is inside a call. -/
def still (count : Sem → ℤ) (o : Option (Child N)) (loc : (p : Child N) → Loc N p)
    (mem : SharedBuffer × Record N) : State N :=
  ⟨calm count o, loc, mem⟩

/-- A call that returns at once. -/
theorem still_pass {c : Call (Child N) Sem Lock Cond}
    (h : (system N).Reachable (still count o (Function.update loc p l) mem))
    (act : noted N p l = .call c l')
    (hc : (calm count o).mon.call p c = (.returned true, (calm count' o').mon)) :
    (system N).Reachable (still count' o' (Function.update loc p l') mem) := by
  have hs := h.step (.pass (p := p) (c := c) (l := l') (r := true) rfl
    (by simpa [still] using act) rfl (congrArg Prod.fst hc))
  have e : ((still count o (Function.update loc p l) mem).call p c).setLoc p l' =
      still count' o' (Function.update loc p l') mem := by
    have hm : ((calm count o).mon.call p c).2 = (calm count' o').mon := congrArg Prod.snd hc
    simp only [still, Threads.call, Threads.setLoc, perform, hc, reduceCtorEq, if_false,
      Function.update_idem]
    rfl
  rwa [e] at hs

theorem still_compute {f : SharedBuffer × Record N → Loc N p × (SharedBuffer × Record N)}
    (h : (system N).Reachable (still count o (Function.update loc p l) mem))
    (act : noted N p l = .compute f) :
    (system N).Reachable (still count o (Function.update loc p (f mem).1) (f mem).2) := by
  have hs := h.step (.compute (p := p) (f := f) rfl (by simpa [still] using act))
  have e : { (still count o (Function.update loc p l) mem).setLoc p (f mem).1 with
      mem := (f mem).2 } = still count o (Function.update loc p (f mem).1) (f mem).2 := by
    simp only [still, Threads.setLoc, Function.update_idem]
  rwa [← e]

theorem calm_semWait {t : Sem} (hc : 0 < count t) : (calm count o).mon.call p (.semWait t) =
    (.returned true, (calm (Function.update count t (count t - 1)) o).mon) :=
  if_neg (by simpa [calm] using hc)

theorem calm_semSignal {t : Sem} : (calm count o).mon.call p (.semSignal t) =
    (.returned true, (calm (Function.update count t (count t + 1)) o).mon) := rfl

theorem calm_acquire :
    (calm count none).mon.call p (.acquire .lock) = (.returned true, (calm count (some p)).mon) := by
  have e : Function.update (fun _ : Lock => (none : Option (Child N))) .lock (some p) =
      fun _ => some p := by
    funext k
    cases k
    simp
  simp [calm, Monitor.call, setOwner, e]

theorem calm_release :
    (calm count (some p)).mon.call p (.release .lock) = (.returned true, (calm count none).mon) := by
  have e : Function.update (fun _ : Lock => some p) .lock none = fun _ => none := by
    funext k
    cases k
    simp
  simp [calm, Monitor.call, handOver, setOwner, e]

/-- A producer inserts an item. -/
theorem still_insert {i : Fin N} {d : Depot} {c : Char}
    (h : (system N).Reachable (still count none loc mem))
    (hl : loc (producer i) = (⟨.waitEmptySlot, d, c⟩ : Producer)) (hc : 0 < count .emptyslots) :
    (system N).Reachable (still
      (Function.update (Function.update count .emptyslots (count .emptyslots - 1)) .fullslots
        (count .fullslots + 1)) none
      (Function.update loc (producer i) (Producer.head ⟨.signalFullSlot, d.advance, c⟩))
      (mem.1.store c, mem.2.insert i mem.1 c)) := by
  rw [← Function.update_eq_self (producer i) loc, hl] at h
  have h₁ := still_pass h rfl (calm_semWait hc)
  have h₂ := still_pass h₁ rfl calm_acquire
  have h₃ := still_compute h₂ rfl
  have h₄ := still_pass h₃ rfl calm_release
  exact still_pass h₄ rfl calm_semSignal

/-- A consumer that finds its item in the head slot gets as far as its wait. -/
theorem still_find {j : Fin N} {d : Depot} {c e : Char}
    (h : (system N).Reachable (still count none loc mem))
    (hl : loc (consumer j) = (⟨.lockAcquire, d, c, e⟩ : Consumer)) (he : mem.1.head = e) :
    (system N).Reachable (still count (some (consumer j))
      (Function.update loc (consumer j) (⟨.waitFullSlot, d, c, e⟩ : Consumer)) mem) := by
  rw [← Function.update_eq_self (consumer j) loc, hl] at h
  have h₁ := still_pass h rfl calm_acquire
  have h₂ := still_compute h₁ rfl
  simp only [he, if_true] at h₂
  exact h₂

/-- A consumer removes the item that it expects. -/
theorem still_remove {j : Fin N} {d : Depot} {c e : Char}
    (h : (system N).Reachable (still count none loc mem))
    (hl : loc (consumer j) = (⟨.lockAcquire, d, c, e⟩ : Consumer)) (he : mem.1.head = e)
    (hc : 0 < count .fullslots) :
    (system N).Reachable (still
      (Function.update (Function.update count .fullslots (count .fullslots - 1)) .emptyslots
        (count .emptyslots + 1)) none
      (Function.update loc (consumer j)
        (Consumer.head ⟨.signalEmptySlot, (d.put mem.1.head).advance, mem.1.head, e⟩))
      (mem.1.advance, mem.2.remove j mem.1)) := by
  have h₁ := still_pass (still_find h hl he) rfl (calm_semWait hc)
  have h₂ := still_compute h₁ rfl
  have h₃ := still_pass h₂ rfl calm_release
  exact still_pass h₃ rfl calm_semSignal

/-! ### Rounds -/

/-- Producers and consumers have done the same rounds, and nobody is inside a call. -/
structure Rounds (is : List (Fin N)) (count : Sem → ℤ) (loc : (p : Child N) → Loc N p)
    (mem : SharedBuffer × Record N) : Prop where
  reach : (system N).Reachable (still count none loc mem)
  full : count .fullslots = 0
  empty : 0 < count .emptyslots
  even : mem.1.wIdx = mem.1.rIdx
  inserted : mem.2.inserted.length = is.length
  removed : mem.2.removed.length = is.length
  producers : ∀ i, ∃ pc c, loc (producer i) = Producer.head ⟨pc, ⟨is.count i, digits⟩, c⟩
  consumers : ∀ j, ∃ pc nums c e,
    loc (consumer j) = Consumer.head ⟨pc, ⟨is.count j, nums⟩, c, e⟩

theorem Rounds.nil : Rounds [] (Q3.count N) (begin N).loc (begin N).mem :=
  ⟨.init rfl, rfl, Int.natCast_pos.mpr (by decide), rfl, rfl, rfl, fun _ => ⟨_, _, rfl⟩,
    fun _ => ⟨_, _, _, _, rfl⟩⟩

/-- A producer and a consumer with items left do a round. -/
theorem Rounds.cons {is : List (Fin N)} (h : Rounds is count loc mem) {i : Fin N}
    (hi : is.count i < 10) : ∃ count loc mem, Rounds (i :: is) count loc mem := by
  obtain ⟨pc, c, hp⟩ := h.producers i
  obtain ⟨pc', nums, c', e, hj⟩ := h.consumers i
  have item : digits[is.count i]? = some (Depot.item ⟨is.count i, digits⟩) := by
    rw [Depot.item, List.getElem?_eq_getElem (show is.count i < digits.length from hi)]
    rfl
  have expected : ditoaChar (is.count i) e = Depot.item ⟨is.count i, digits⟩ :=
    Option.some.inj ((ditoaChar_eq hi e).symm.trans item)
  rw [Producer.head, Producer.loop, if_pos hi] at hp
  rw [Consumer.head, Consumer.loop, if_pos hi] at hj
  have h₁ := still_insert h.reach hp h.empty
  have h₂ := still_remove h₁ (by rw [Function.update_of_ne (by simp), hj])
    (by simpa [SharedBuffer.head, SharedBuffer.store, h.even] using expected.symm)
    (by simp [h.full])
  refine ⟨_, _, _, h₂, ?_, ?_, ?_, ?_, ?_, fun k => ?_, fun k => ?_⟩
  · simp [h.full]
  · simpa using h.empty
  · simp [SharedBuffer.advance, SharedBuffer.store, h.even]
  · simp [h.inserted]
  · simp [h.removed]
  · by_cases hk : k = i
    · subst hk
      refine ⟨.signalFullSlot, Depot.item ⟨is.count k, digits⟩, ?_⟩
      rw [Function.update_of_ne (by simp), Function.update_self, List.count_cons_self]
      rfl
    · rw [Function.update_of_ne (by simp), Function.update_of_ne (by simpa using hk),
        List.count_cons_of_ne (Ne.symm hk)]
      exact h.producers k
  · by_cases hk : k = i
    · subst hk
      rw [Function.update_self, List.count_cons_self]
      exact ⟨_, _, _, _, rfl⟩
    · rw [Function.update_of_ne (by simpa using hk), Function.update_of_ne (by simp),
        List.count_cons_of_ne (Ne.symm hk)]
      exact h.consumers k

/-- Any rounds can be done in which nobody takes part more than ten times. -/
theorem exists_rounds (is : List (Fin N)) (h : ∀ i, is.count i ≤ 10) :
    ∃ count loc mem, Rounds is count loc mem := by
  induction is with
  | nil => exact ⟨_, _, _, .nil⟩
  | cons i is ih =>
      obtain ⟨count, loc, mem, hr⟩ := ih fun k => List.count_le_count_cons.trans (h k)
      refine hr.cons ?_
      have := h i
      rw [List.count_cons_self] at this
      omega

/-- After a full round of the ring the head slot holds the first item ever inserted. -/
theorem Rounds.head {is : List (Fin N)} (h : Rounds is count loc mem)
    (hl : is.length = bufferSize) : mem.1.head = '0' := by
  have hf := (reachable_fits h.reach).ring
  change Ring.Holds bufferSize _ mem.1.wIdx mem.1.rIdx mem.1.buffer (mem.2.inserted.map Entry.item)
    mem.2.removed.length at hf
  have first : 0 < mem.2.inserted.length := by
    rw [h.inserted, hl]
    decide
  have slot := hf.stored 0 (by simpa using first) (by simp [h.inserted, hl])
  have mine : ∀ i, itemsOf Entry.who Entry.item i mem.2.inserted <+: digits := fun i =>
    Producer.Knows.isPrefix (reachable_knows h.reach (producer i))
  have item := item_at mine first
  have e : mem.1.rIdx = 0 := by
    rw [hf.r_eq, h.removed, hl, Nat.mod_self]
  rw [SharedBuffer.head, e]
  rw [List.getElem?_map, List.getElem?_eq_getElem first, Nat.zero_mod] at slot
  rw [List.take_zero, itemsOf_nil] at item
  exact (Option.some.inj slot).symm.trans (Option.some.inj item).symm

/-! ### The rest comes to a stop -/

/-- The child has come to its end or sleeps. -/
def Done (s : State N) (p : Child N) : Prop := Finished p (s.loc p) ∨ ¬ s.session.Awake p

/-- The child is about to make a call that it makes without the lock and without an item. -/
def Resting : (p : Child N) → Loc N p → Prop
  | .inl _, l => l.pc = .waitEmptySlot ∨ l.pc = .lockAcquire ∨ l.pc = .signalCompleted
  | .inr _, l => l.pc = .lockAcquire ∨ l.pc = .signalCompleted

/-- A consumer sleeps with the lock, and nobody else is inside. -/
structure Jam (s : State N) (j : Fin N) : Prop where
  reach : (system N).Reachable s
  owner : s.session.mon.owner .lock = some (consumer j)
  asleep : ¬ s.session.Awake (consumer j)
  served : s.session.mon.waiting (.sem .procsCompleted) = []
  places : ∀ p, Done s p ∨ s.session.pending p = none ∧ Resting p (s.loc p)

variable {s s' : State N} {j : Fin N}

/-- Steps that wake nobody keep a jam. -/
theorem Jam.step (h : Jam s j) (hs : s.Step (noted N) p s')
    (ho : s'.session.mon.owner = s.session.mon.owner)
    (hw : ∀ w q, q ∈ s.session.mon.waiting w → q ∈ s'.session.mon.waiting w)
    (hc : s'.session.mon.waiting (.sem .procsCompleted) = [])
    (self : Done s' p ∨ s'.session.pending p = none ∧ Resting p (s'.loc p)) :
    Jam s' j ∧ ∀ q, q ≠ p → Done s q → Done s' q := by
  have asleep : ∀ q, ¬ s.session.Awake q → ¬ s'.session.Awake q := by
    intro q hq ha
    obtain ⟨w, hm⟩ := not_forall_not.mp hq
    exact ha w (hw w q hm)
  have keep : ∀ q, q ≠ p → Done s q → Done s' q := by
    rintro q hq (hf | hd)
    · left
      rw [hs.loc_of_ne hq]
      exact hf
    · exact .inr (asleep q hd)
  refine ⟨⟨h.reach.step hs, (congrFun ho _).trans h.owner, asleep _ h.asleep, hc, fun q => ?_⟩, keep⟩
  by_cases hq : q = p
  · subst hq
    exact self
  · rcases h.places q with hd | ⟨hp, hr⟩
    · exact .inl (keep q hq hd)
    · right
      rw [hs.pending_of_ne hq, hs.loc_of_ne hq]
      exact ⟨hp, hr⟩

theorem Jam.used (h : Jam s j) (w : WaitPoint Sem Lock Cond) : s.session.inuse w = true :=
  (Threads.reachable_fixed begin_fresh h.reach).2 w

/-- A call that only queues its caller. -/
theorem Jam.block (h : Jam s j) {c : Call (Child N) Sem Lock Cond} {w : WaitPoint Sem Lock Cond}
    (outside : s.session.pending p = none) (act : noted N p (s.loc p) = .call c l)
    (hcall : s.session.mon.call p c = (.blocked, s.session.mon.enqueue w p))
    (hw : w ≠ .sem .procsCompleted) :
    ∃ s', Jam s' j ∧ Done s' p ∧ ∀ q, q ≠ p → Done s q → Done s' q := by
  have done : Done (s.call p c) p := by
    refine .inr fun ha => ha w ?_
    simp [perform, hcall]
  refine ⟨_, (h.step (.block outside act (h.used _) (congrArg Prod.fst hcall)) ?_ ?_ ?_
    (.inl done)).imp_right fun keep => ⟨done, keep⟩⟩
  · simp [perform, hcall]
  · intro v q hm
    simp only [Threads.call_session, perform, hcall]
    by_cases e : v = w
    · subst e
      simp [hm]
    · rwa [enqueue_of_ne _ _ _ _ e]
  · simp only [Threads.call_session, perform, hcall]
    rw [enqueue_of_ne _ _ _ _ hw.symm]
    exact h.served

/-- Whoever tries to get the lock falls asleep. -/
theorem Jam.acquire (h : Jam s j) (outside : s.session.pending p = none)
    (act : noted N p (s.loc p) = .call (.acquire .lock) l) :
    ∃ s', Jam s' j ∧ Done s' p ∧ ∀ q, q ≠ p → Done s q → Done s' q := by
  have hp : consumer j ≠ p := by
    rintro rfl
    exact h.asleep ((Threads.reachable_coherent begin_fresh h.reach).sound.awake outside)
  exact h.block (w := .lock .lock) outside act (by simp [Monitor.call, h.owner, hp]) (by simp)

/-- The last signal of a child wakes nobody. -/
theorem Jam.complete (h : Jam s j) (outside : s.session.pending p = none)
    (act : noted N p (s.loc p) = .call (.semSignal .procsCompleted) l) (hl : Finished p l) :
    ∃ s', Jam s' j ∧ Done s' p ∧ ∀ q, q ≠ p → Done s q → Done s' q := by
  have hcall : s.session.mon.call p (.semSignal .procsCompleted) = (.returned true,
      s.session.mon.setCount .procsCompleted (s.session.mon.count .procsCompleted + 1)) := by
    simp [Monitor.call, h.served]
  have done : Done ((s.call p (.semSignal .procsCompleted)).setLoc p l) p := by
    left
    rwa [Threads.setLoc_self]
  refine ⟨_, (h.step (.pass outside act (h.used _) (congrArg Prod.fst hcall)) ?_ ?_ ?_
    (.inl done)).imp_right fun keep => ⟨done, keep⟩⟩
  · simp [perform, hcall]
  · simp [perform, hcall]
  · simpa [perform, hcall] using h.served

/-- A wait for an empty slot ends asleep or at the lock. -/
theorem Jam.reserve (h : Jam s j) {i : Fin N} (outside : s.session.pending (producer i) = none)
    (hpc : (s.producerAt i).pc = .waitEmptySlot) :
    ∃ s', Jam s' j ∧ Done s' (producer i) ∧ ∀ q, q ≠ producer i → Done s q → Done s' q := by
  have act : noted N (producer i) (s.loc (producer i)) =
      .call (.semWait .emptyslots) { s.producerAt i with pc := .lockAcquire } := by
    refine Program.noted_call.mpr ?_
    simp only [program, Producer.action, hpc]
  by_cases hc : s.session.mon.count .emptyslots ≤ 0
  · exact h.block (w := .sem .emptyslots) outside act (if_pos hc) (by simp)
  · have hcall : s.session.mon.call (producer i) (.semWait .emptyslots) = (.returned true,
        s.session.mon.setCount .emptyslots (s.session.mon.count .emptyslots - 1)) := if_neg hc
    obtain ⟨hj, keep⟩ := h.step (.pass outside act (h.used _) (congrArg Prod.fst hcall))
      (by simp [perform, hcall]) (by simp [perform, hcall])
      (by simpa [perform, hcall] using h.served) (by
        refine .inr ⟨by simp [perform, hcall, outside], ?_⟩
        rw [Threads.setLoc_self]
        exact .inr (.inl rfl))
    obtain ⟨s', hj', done, keep'⟩ := hj.acquire (p := producer i)
      (l := { s.producerAt i with pc := .store }) (by simp [perform, hcall, outside]) (by
        rw [Threads.setLoc_self]
        rfl)
    exact ⟨s', hj', done, fun q hq hd => keep' q hq (keep q hq hd)⟩

/-- Every child can be brought to a stop. -/
theorem Jam.settle (h : Jam s j) (p : Child N) :
    ∃ s', Jam s' j ∧ Done s' p ∧ ∀ q, q ≠ p → Done s q → Done s' q := by
  rcases h.places p with hd | ⟨outside, hr⟩
  · exact ⟨s, h, hd, fun _ _ hq => hq⟩
  · cases p with
    | inl i =>
        rcases hr with hpc | hpc | hpc
        · exact h.reserve outside hpc
        · refine h.acquire (p := producer i) (l := { s.producerAt i with pc := .store }) outside ?_
          exact Program.noted_call.mpr (by simp only [program, Producer.action, hpc])
        · refine h.complete (p := producer i) (l := { s.producerAt i with pc := .finished }) outside ?_ rfl
          exact Program.noted_call.mpr (by simp only [program, Producer.action, hpc])
    | inr k =>
        rcases hr with hpc | hpc
        · refine h.acquire (p := consumer k) (l := { s.consumerAt k with pc := .test }) outside ?_
          exact Program.noted_call.mpr (by simp only [program, Consumer.action, hpc])
        · refine h.complete (p := consumer k) (l := { s.consumerAt k with pc := .finished }) outside ?_ rfl
          exact Program.noted_call.mpr (by simp only [program, Consumer.action, hpc])

theorem Jam.settle_all (h : Jam s j) (ps : List (Child N)) :
    ∃ s', Jam s' j ∧ ∀ p ∈ ps, Done s' p := by
  induction ps with
  | nil => exact ⟨s, h, by simp⟩
  | cons p ps ih =>
      obtain ⟨s₁, h₁, done₁⟩ := ih
      obtain ⟨s₂, h₂, done₂, keep⟩ := h₁.settle p
      refine ⟨s₂, h₂, fun q hq => ?_⟩
      by_cases e : q = p
      · exact e ▸ done₂
      · exact keep q e (done₁ q ((List.mem_cons.mp hq).resolve_left e))

/-- A jam ends with everybody stuck. -/
theorem Jam.not_deadlockFree (h : Jam s j) : ¬ DeadlockFree N := by
  obtain ⟨s', h', done⟩ := h.settle_all (Finset.univ.toList)
  have all : ∀ p, Done s' p := fun p => done p (by simp)
  have unfinished : ¬ Finished (consumer j) (s'.loc (consumer j)) := by
    have hs := Threads.reachable_coherent begin_fresh h'.reach
    obtain ⟨w, hw⟩ := not_forall_not.mp h'.asleep
    obtain ⟨c, hc, -⟩ := hs.sound.pending w _ hw
    exact Q3.unfinished h'.reach hc
  intro free
  obtain ⟨p, hp, awake⟩ := free s'.forget (Threads.reachable_forget h'.reach) ⟨_, unfinished⟩
  exact (all p).elim hp fun asleep => asleep awake

theorem Producer.head_resting (l : Producer) (i : Fin N) : Resting (producer i) (head l) := by
  rcases l.loop_pc .waitEmptySlot .signalCompleted with h | h
  · exact .inl h
  · exact .inr (.inr h)

theorem Consumer.head_resting (l : Consumer) (j : Fin N) : Resting (consumer j) (head l) := by
  rcases l.loop_pc .lockAcquire .signalCompleted with h | h
  · exact .inl h
  · exact .inr h

/-- A consumer that has done nothing in a full round of the ring jams it. -/
theorem Rounds.jam {is : List (Fin N)} (h : Rounds is count loc mem)
    (hl : is.length = bufferSize) (hj : is.count j = 0) : ∃ s, Jam s j := by
  obtain ⟨pc, nums, c, e, hc⟩ := h.consumers j
  rw [hj, Consumer.head, Consumer.loop, if_pos (show 0 < 10 by decide)] at hc
  have expected : mem.1.head = ditoaChar 0 e := by
    rw [h.head hl]
    exact Option.some.inj (ditoaChar_eq (show 0 < 10 by decide) e)
  have hr := still_find h.reach hc expected
  set s := still count (some (consumer j))
    (Function.update loc (consumer j) (⟨.waitFullSlot, ⟨0, nums⟩, c, ditoaChar 0 e⟩ : Consumer)) mem
  have hcall : s.session.mon.call (consumer j) (.semWait .fullslots) =
      (.blocked, s.session.mon.enqueue (.sem .fullslots) (consumer j)) :=
    if_pos (le_of_eq h.full)
  have hs := hr.step (.block (p := consumer j) (c := .semWait .fullslots) rfl
    (by simp only [s, still, Function.update_self]; rfl) rfl (congrArg Prod.fst hcall))
  refine ⟨_, hs, ?_, ?_, ?_, fun p => ?_⟩
  · simp only [Threads.call_session, perform, hcall]
    rfl
  · exact fun ha => ha (.sem .fullslots) (by simp [perform, hcall])
  · simp only [Threads.call_session, perform, hcall]
    rw [enqueue_of_ne _ _ _ _ (by simp)]
    rfl
  · by_cases hp : p = consumer j
    · subst hp
      exact .inl (.inr fun ha => ha (.sem .fullslots) (by simp [perform, hcall]))
    · refine .inr ⟨perform_pending_of_ne _ _ hp, ?_⟩
      simp only [Threads.call_loc, s, still, Function.update_of_ne hp]
      cases p with
      | inl i =>
          obtain ⟨pc, c, e⟩ := h.producers i
          rw [e]
          exact Producer.head_resting ..
      | inr k =>
          obtain ⟨pc, nums, c, x, e⟩ := h.consumers k
          rw [e]
          exact Consumer.head_resting ..

/-- With five pairs or more all children can get stuck. -/
theorem not_deadlockFree (hN : 5 ≤ N) : ¬ DeadlockFree N := by
  let pair (n : ℕ) (h : n < 5) : Fin N := ⟨n, h.trans_le hN⟩
  let is := List.replicate 10 (pair 0 (by decide)) ++ List.replicate 10 (pair 1 (by decide)) ++
    List.replicate 10 (pair 2 (by decide)) ++ List.replicate 2 (pair 3 (by decide))
  have most : ∀ i, is.count i ≤ 10 := by
    intro i
    simp only [is, pair, List.count_append, List.count_replicate, beq_iff_eq, Fin.ext_iff]
    split_ifs <;> omega
  obtain ⟨count, loc, mem, h⟩ := exists_rounds is most
  obtain ⟨s, hs⟩ := h.jam (j := pair 4 (by decide)) (by simp [is, bufferSize]) (by
    simp [is, pair])
  exact hs.not_deadlockFree

/-- The children never get stuck exactly when there are at most four pairs. -/
theorem deadlockFree_iff (N : ℕ) : DeadlockFree N ↔ N ≤ 4 := by
  constructor
  · intro h
    by_contra hN
    exact not_deadlockFree (by omega) h
  · intro hN s h hu
    by_contra hne
    push Not at hne
    obtain ⟨o, ho⟩ : ∃ o, (system N).Reachable (s.noting o) :=
      Threads.reachable_noting (Record.new N) h
    have many := Stuck.many (s := s.noting o) hne ho hu
    omega

/-- Five pairs fit into the process table and can get stuck. -/
theorem not_always_deadlockFree : ¬ ∀ N, 1 ≤ N → N ≤ 15 → DeadlockFree N := fun h =>
  not_deadlockFree (N := 5) le_rfl (h 5 (by decide) (by decide))

end DlxOs.Apps.Q3
