import DlxOs.Apps.Q4.Safety
import DlxOs.Library.Execution

/-!
# No lost wakeup in the ring buffer with condition variables

A child goes to sleep only when the ring is full or empty, and every store and
every removal wakes one. So the number of consumers asleep is bounded by the
slots that have been filled since the ring was empty and by the items still to
come, and the number of producers asleep likewise. With few enough pairs the
two kinds cannot both be asleep when they are needed.
-/

namespace DlxOs.Apps.Q4

open Monitors Interleavings

variable {N : ℕ} {s : State N}

/-- How many children can be asleep, when `e` stores and `f` removals have not been signalled. -/
structure Paced (N e f : ℕ) (o : Record N) (asleep : Cond → List (Child N)) : Prop where
  stocked : (asleep .notEmpty).length ≤ N + o.removed.length + e - o.inserted.length
  supply : (asleep .notEmpty).length ≤ 10 * N + e - o.inserted.length
  room : (asleep .notFull).length ≤
    N + f + o.inserted.length + 1 - (o.removed.length + bufferSize)

def Producer.owes (l : Producer) : ℕ := if l.pc = .signalNotEmpty then 1 else 0

def Consumer.owes (l : Consumer) : ℕ := if l.pc = .signalNotFull then 1 else 0

/-- The child inside owes the signal for its store or its removal. -/
def wakeups (N : ℕ) : Outline (Child N) Cond (Loc N) (SharedBuffer × Record N) where
  free x w := Paced N 0 0 x.2 w
  woken _ x w := Paced N 0 0 x.2 w
  pre
    | .inl _, l, x, w => Paced N (Producer.owes l) 0 x.2 w
    | .inr _, l, x, w => Paced N 0 (Consumer.owes l) x.2 w

/-! ### Who can be asleep -/

/-- Distinct producers are no more than there are. -/
theorem length_le_of_inl {l : List (Child N)} (hn : l.Nodup) (h : ∀ q ∈ l, ∃ i, q = producer i) :
    l.length ≤ N := by
  obtain ⟨is, rfl⟩ : l ∈ Set.range (List.map (Sum.inl : Fin N → Child N)) := by
    rw [Set.range_list_map]
    exact fun q hq => (h q hq).imp fun i e => e.symm
  have := (hn.of_map _).length_le_card
  simpa using this

/-- Distinct consumers that have an item left are no more than the items left. -/
theorem length_le_of_inr {l : List (Child N)} {f : Fin N → ℕ} (hn : l.Nodup)
    (hf : ∀ j, f j ≤ 10) (h : ∀ q ∈ l, ∃ j, q = consumer j ∧ f j < 10) :
    l.length ≤ N ∧ l.length + ∑ j, f j ≤ 10 * N := by
  obtain ⟨js, rfl⟩ : l ∈ Set.range (List.map (Sum.inr : Fin N → Child N)) := by
    rw [Set.range_list_map]
    exact fun q hq => (h q hq).imp fun i e => e.1.symm
  have hjs := hn.of_map
  refine ⟨by simpa using hjs.length_le_card, ?_⟩
  have left : ∀ j ∈ js, f j < 10 := by
    intro j hj
    obtain ⟨j', e, hlt⟩ := h (.inr j) (List.mem_map_of_mem hj)
    obtain rfl : j = j' := Sum.inr.inj e
    exact hlt
  calc (js.map Sum.inr).length + ∑ j, f j
      = ∑ j, (if j ∈ js then 1 else 0) + ∑ j, f j := by
        have hcard : Finset.univ.filter (· ∈ js) = js.toFinset := by
          ext j
          simp
        rw [List.length_map, Finset.sum_boole, hcard, List.toFinset_card_of_nodup hjs]
        rfl
    _ ≤ ∑ j : Fin N, 10 := by
        rw [← Finset.sum_add_distrib]
        refine Finset.sum_le_sum fun j _ => ?_
        have := hf j
        split_ifs with hj
        · have := left j hj
          omega
        · omega
    _ = 10 * N := by simp [mul_comm]

/-- Who sleeps on `not_full` is a producer that has tested the ring. -/
theorem asleep_notFull (h : (system N).Reachable s) {q : Child N} (hq : q ∈ s.asleep .notFull) :
    ∃ i, q = producer i ∧ (s.producerAt i).pc = .waitNotFull := by
  have hs := Threads.reachable_coherent begin_fresh h
  obtain ⟨c, hc, e⟩ := hs.sound.pending _ q hq
  obtain ⟨l, act⟩ := hs.called q c hc
  have act := Program.noted_call.mp act
  obtain rfl : c = .wait .notFull := by
    cases c <;> simp [Monitor.point] at e ⊢
    exact e
  cases q with
  | inl i =>
      refine ⟨i, rfl, ?_⟩
      change Producer.action (s.producerAt i) = _ at act
      generalize s.producerAt i = l₀ at act
      obtain ⟨pc, d, p⟩ := l₀
      cases pc <;> cases act
      rfl
  | inr j =>
      change Consumer.action (s.consumerAt j) = _ at act
      generalize s.consumerAt j = l₀ at act
      obtain ⟨pc, d, p, e'⟩ := l₀
      cases pc <;> cases act

/-- Who sleeps on `not_empty` is a consumer that has an item left to remove. -/
theorem asleep_notEmpty (h : (system N).Reachable s) {q : Child N} (hq : q ∈ s.asleep .notEmpty) :
    ∃ j, q = consumer j ∧ places.gone (s.consumerAt j) < 10 := by
  have hs := Threads.reachable_coherent begin_fresh h
  obtain ⟨c, hc, e⟩ := hs.sound.pending _ q hq
  obtain ⟨l, act⟩ := hs.called q c hc
  have act := Program.noted_call.mp act
  obtain rfl : c = .wait .notEmpty := by
    cases c <;> simp [Monitor.point] at e ⊢
    exact e
  have hk := reachable_knows h q
  cases q with
  | inl i =>
      change Producer.action (s.producerAt i) = _ at act
      generalize s.producerAt i = l₀ at act
      obtain ⟨pc, d, p⟩ := l₀
      cases pc <;> cases act
  | inr j =>
      refine ⟨j, rfl, ?_⟩
      change (s.consumerAt j).Knows places _ at hk
      change Consumer.action (s.consumerAt j) = _ at act
      generalize s.consumerAt j = l₀ at act hk ⊢
      obtain ⟨pc, d, p, e'⟩ := l₀
      cases pc <;> cases act
      exact index_lt (hk.seeks rfl)

/-! ### Sleeping, waking and moving items -/

section Paced

variable {e f : ℕ} {o : Record N} {w : Cond → List (Child N)} {q : Child N} {rest : List (Child N)}

theorem Paced.sleep_notFull (h : Paced N 0 0 o w) (hr : ¬ Room o)
    (hle : (w .notFull ++ [q]).length ≤ N) :
    Paced N 0 0 o (Function.update w .notFull (w .notFull ++ [q])) := by
  refine ⟨h.stocked, h.supply, ?_⟩
  rw [Room] at hr
  rw [Function.update_self]
  omega

theorem Paced.sleep_notEmpty (h : Paced N 0 0 o w) (hs : ¬ Stocked o)
    (hle : (w .notEmpty ++ [q]).length ≤ N)
    (hleft : (w .notEmpty ++ [q]).length + o.removed.length ≤ 10 * N) :
    Paced N 0 0 o (Function.update w .notEmpty (w .notEmpty ++ [q])) := by
  rw [Stocked] at hs
  refine ⟨?_, ?_, h.room⟩
  · rw [Function.update_self]
    omega
  · rw [Function.update_self]
    omega

theorem Paced.wake_notEmpty (h : Paced N 1 0 o w) (hw : w .notEmpty = q :: rest) :
    Paced N 0 0 o (Function.update w .notEmpty rest) := by
  have hs := h.stocked
  have hp := h.supply
  rw [hw, List.length_cons] at hs hp
  refine ⟨?_, ?_, h.room⟩
  · rw [Function.update_self]
    omega
  · rw [Function.update_self]
    omega

theorem Paced.wake_notFull (h : Paced N 0 1 o w) (hw : w .notFull = q :: rest) :
    Paced N 0 0 o (Function.update w .notFull rest) := by
  have hr := h.room
  rw [hw, List.length_cons] at hr
  refine ⟨h.stocked, h.supply, ?_⟩
  rw [Function.update_self]
  omega

theorem Paced.unheard_notEmpty (h : Paced N 1 0 o w) (hw : w .notEmpty = []) : Paced N 0 0 o w := by
  refine ⟨?_, ?_, h.room⟩ <;> simp [hw]

theorem Paced.unheard_notFull (h : Paced N 0 1 o w) (hw : w .notFull = []) : Paced N 0 0 o w := by
  refine ⟨h.stocked, h.supply, ?_⟩
  simp [hw]

theorem Paced.store (h : Paced N 0 0 o w) (i : Fin N) (buf : SharedBuffer) (c : Char) :
    Paced N 1 0 (o.insert i buf c) w := by
  have hs := h.stocked
  have hp := h.supply
  have hr := h.room
  constructor <;> simp <;> omega

theorem Paced.remove (h : Paced N 0 0 o w) (j : Fin N) (buf : SharedBuffer) :
    Paced N 0 1 (o.remove j buf) w := by
  have hs := h.stocked
  have hp := h.supply
  have hr := h.room
  constructor <;> simp <;> omega

end Paced

theorem Producer.head_owes (l : Producer) : owes (head l) = 0 := by
  rcases l.loop_pc .lockAcquire .signalCompleted with h | h <;> rw [owes, head, h] <;> rfl

theorem Consumer.head_owes (l : Consumer) : owes (head l) = 0 := by
  rcases l.loop_pc .lockAcquire .signalCompleted with h | h <;> rw [owes, head, h] <;> rfl

/-- A producer owes a signal exactly where it makes it. -/
theorem Producer.owes_call {l l' : Producer} {c : Call (Child N) Sem Lock Cond}
    (act : action l = .call c l') :
    owes l' = 0 ∧ owes l = if c = .signal .notEmpty then 1 else 0 := by
  obtain ⟨pc, d, p⟩ := l
  cases pc <;> cases act
  case lockRelease =>
    exact ⟨head_owes _, rfl⟩
  all_goals exact ⟨rfl, rfl⟩

theorem Consumer.owes_call {l l' : Consumer} {c : Call (Child N) Sem Lock Cond}
    (act : action l = .call c l') :
    owes l' = 0 ∧ owes l = if c = .signal .notFull then 1 else 0 := by
  obtain ⟨pc, d, p, e⟩ := l
  cases pc <;> cases act
  case lockRelease =>
    exact ⟨head_owes _, rfl⟩
  all_goals exact ⟨rfl, rfl⟩

/-- A call of a child finds and leaves no signal owed, unless it is the signal. -/
theorem owes_call {p : Child N} {l l' : Loc N p} {c : Call (Child N) Sem Lock Cond}
    (act : noted N p l = .call c l') {x : SharedBuffer × Record N} {w : Cond → List (Child N)} :
    ((wakeups N).pre p l' x w ↔ Paced N 0 0 x.2 w) ∧
      ((∀ d, c ≠ .signal d) → ((wakeups N).pre p l x w ↔ Paced N 0 0 x.2 w)) := by
  have act := Program.noted_call.mp act
  cases p with
  | inl i =>
      obtain ⟨h', h⟩ := Producer.owes_call act
      refine ⟨by simp only [wakeups, h'], fun hc => ?_⟩
      simp only [wakeups, h, if_neg (hc _)]
  | inr j =>
      obtain ⟨h', h⟩ := Consumer.owes_call act
      refine ⟨by simp only [wakeups, h'], fun hc => ?_⟩
      simp only [wakeups, h, if_neg (hc _)]

theorem Producer.wait_call {l l' : Producer} {c : Cond}
    (act : action (N := N) l = .call (.wait c) l') :
    c = .notFull ∧ l.pc = .waitNotFull := by
  obtain ⟨pc, d, p⟩ := l
  cases pc <;> cases act
  exact ⟨rfl, rfl⟩

theorem Consumer.wait_call {l l' : Consumer} {c : Cond}
    (act : action (N := N) l = .call (.wait c) l') :
    c = .notEmpty ∧ l.pc = .waitNotEmpty := by
  obtain ⟨pc, d, p, e⟩ := l
  cases pc <;> cases act
  exact ⟨rfl, rfl⟩

theorem Producer.signal_call {l l' : Producer} {c : Cond}
    (act : action (N := N) l = .call (.signal c) l') : c = .notEmpty ∧ owes l = 1 := by
  obtain ⟨pc, d, p⟩ := l
  cases pc <;> cases act
  exact ⟨rfl, rfl⟩

theorem Consumer.signal_call {l l' : Consumer} {c : Cond}
    (act : action (N := N) l = .call (.signal c) l') : c = .notFull ∧ owes l = 1 := by
  obtain ⟨pc, d, p, e⟩ := l
  cases pc <;> cases act
  exact ⟨rfl, rfl⟩

/-- With the caller there are still no two of the same at a condition variable. -/
theorem sleeper_nodup (h : (system N).Reachable s) {p : Child N}
    (outside : s.session.pending p = none) (c : Cond) : (s.asleep c ++ [p]).Nodup := by
  have hs := Threads.reachable_coherent begin_fresh h
  refine List.nodup_append.mpr ⟨hs.sound.nodup _, by simp, ?_⟩
  rintro q hq r hr rfl
  rw [List.mem_singleton.mp hr] at hq
  exact hs.sound.awake outside _ hq

theorem wait_notFull (h : (system N).Reachable s) {i : Fin N}
    (outside : s.session.pending (producer i) = none) (hpc : (s.producerAt i).pc = .waitNotFull)
    (hp : Paced N 0 0 s.record s.asleep) :
    Paced N 0 0 s.record (Function.update s.asleep .notFull (s.asleep .notFull ++ [producer i])) := by
  have hh : holds (producer i) (s.loc (producer i)) := by
    change (s.producerAt i).pc.inside = true
    rw [hpc]
    rfl
  have hr : Producer.Relies (s.producerAt i) s.record := (relies h outside hh).2
  rw [Producer.Relies, hpc] at hr
  refine hp.sleep_notFull hr (length_le_of_inl (sleeper_nodup h outside _) fun q hq => ?_)
  rcases List.mem_append.mp hq with hq | hq
  · exact (asleep_notFull h hq).imp fun _ e => e.1
  · exact ⟨i, List.mem_singleton.mp hq⟩

theorem wait_notEmpty (h : (system N).Reachable s) {j : Fin N}
    (outside : s.session.pending (consumer j) = none) (hpc : (s.consumerAt j).pc = .waitNotEmpty)
    (hp : Paced N 0 0 s.record s.asleep) :
    Paced N 0 0 s.record
      (Function.update s.asleep .notEmpty (s.asleep .notEmpty ++ [consumer j])) := by
  have hh : holds (consumer j) (s.loc (consumer j)) := by
    change (s.consumerAt j).pc.inside = true
    rw [hpc]
    rfl
  have hr : Consumer.Relies (s.consumerAt j) s.mem := (relies h outside hh).2
  rw [Consumer.Relies, hpc] at hr
  have hk : ∀ j, (s.consumerAt j).Knows places (s.record.removedBy j) := fun j =>
    reachable_knows h (consumer j)
  have hj : places.gone (s.consumerAt j) < 10 := by
    have := index_lt ((hk j).seeks (by rw [hpc]; rfl))
    rwa [Places.gone, hpc]
  obtain ⟨hle, hleft⟩ := length_le_of_inr (f := fun j => places.gone (s.consumerAt j))
    (sleeper_nodup h outside .notEmpty) (fun j => (hk j).le) fun q hq => by
      rcases List.mem_append.mp hq with hq | hq
      · exact asleep_notEmpty h hq
      · exact ⟨j, List.mem_singleton.mp hq, hj⟩
  rw [(places.sum_knows (reachable_knows h)).2] at hleft
  exact hp.sleep_notEmpty hr hle hleft

/-- A store or a removal makes its child owe a signal. -/
theorem Producer.owes_compute {l : Producer} {i : Fin N} {x : SharedBuffer × Record N}
    {w : Cond → List (Child N)} {f : SharedBuffer → Producer × SharedBuffer}
    (act : action (N := N) l = .compute f) (hp : Paced N (owes l) 0 x.2 w) :
    Paced N (owes (f x.1).1) 0 (places.note (producer i) l x.1 x.2) w := by
  obtain ⟨pc, d, p⟩ := l
  cases pc <;> cases act
  case test =>
    change Paced N (owes ⟨ite _ _ _, d, p⟩) 0 x.2 w
    split_ifs <;> exact hp
  case store => exact hp.store i x.1 p

theorem Consumer.owes_compute {l : Consumer} {j : Fin N} {x : SharedBuffer × Record N}
    {w : Cond → List (Child N)} {f : SharedBuffer → Consumer × SharedBuffer}
    (act : action (N := N) l = .compute f) (hp : Paced N 0 (owes l) x.2 w) :
    Paced N 0 (owes (f x.1).1) (places.note (consumer j) l x.1 x.2) w := by
  obtain ⟨pc, d, p, e⟩ := l
  cases pc <;> cases act
  case test =>
    change Paced N 0 (owes ⟨ite _ _ _, d, p, e⟩) x.2 w
    split_ifs <;> exact hp
  case look =>
    change Paced N 0 (owes ⟨ite _ _ _, d, p, e⟩) x.2 w
    split_ifs <;> exact hp
  case remove => exact hp.remove j x.1

theorem wakeups_valid : (wakeups N).Valid (noted N) .lock (begin N) := by
  constructor
  case init => exact ⟨Nat.zero_le _, Nat.zero_le _, Nat.zero_le _⟩
  case enter => exact fun s p l _ act hf => (owes_call act).1.mpr hf
  case exit => exact fun s p l _ act hp => ((owes_call act).2 (by simp)).mp hp
  case waited => exact fun s p c l _ act hw => (owes_call act).1.mpr hw
  case signalled => exact fun s p c l _ act hf => (owes_call act).1.mpr hf
  case sem =>
    intro s p c l t _ act hc hp
    refine (owes_call act).1.mpr (((owes_call act).2 ?_).mp hp)
    rintro d rfl
    cases hc
  case wait =>
    intro s p c l hr outside act hp
    have hq := ((owes_call act).2 (by simp)).mp hp
    have act := Program.noted_call.mp act
    cases p with
    | inl i =>
        obtain ⟨rfl, hpc⟩ := Producer.wait_call act
        exact wait_notFull hr outside hpc hq
    | inr j =>
        obtain ⟨rfl, hpc⟩ := Consumer.wait_call act
        exact wait_notEmpty hr outside hpc hq
  case signal =>
    intro s p c l q rest hr act hp hw
    have act := Program.noted_call.mp act
    cases p with
    | inl i =>
        obtain ⟨rfl, ho⟩ := Producer.signal_call act
        simp only [wakeups, ho] at hp
        exact hp.wake_notEmpty hw
    | inr j =>
        obtain ⟨rfl, ho⟩ := Consumer.signal_call act
        simp only [wakeups, ho] at hp
        exact hp.wake_notFull hw
  case unheard =>
    intro s p c l hr act hp hw
    refine (owes_call act).1.mpr ?_
    have act := Program.noted_call.mp act
    cases p with
    | inl i =>
        obtain ⟨rfl, ho⟩ := Producer.signal_call act
        simp only [wakeups, ho] at hp
        exact hp.unheard_notEmpty hw
    | inr j =>
        obtain ⟨rfl, ho⟩ := Consumer.signal_call act
        simp only [wakeups, ho] at hp
        exact hp.unheard_notFull hw
  case compute =>
    intro s p f _ _ act hp
    obtain ⟨g, act', rfl⟩ := Program.noted_compute.mp act
    cases p with
    | inl i => exact Producer.owes_compute act' hp
    | inr j => exact Consumer.owes_compute act' hp

theorem reachable_wakeups (h : (system N).Reachable s) : (wakeups N).Holds .lock s :=
  wakeups_valid.reachable_holds begin_fresh disciplined (fun _ => rfl) begin_outside h

/-! ### When the lock is free -/

/-- With a free lock a producer in its critical section waits for room. -/
theorem Producer.quiet (h : (system N).Reachable s) (free : s.session.mon.owner .lock = none)
    {i : Fin N} (hin : (s.producerAt i).pc.inside) : (s.producerAt i).pc = .waitNotFull := by
  have hs := Threads.reachable_coherent begin_fresh h
  obtain ⟨c, hp, -⟩ := (reachable_lock h).quiet hs.sound free (p := producer i) hin
  obtain ⟨l, act⟩ := hs.called _ _ hp
  exact (wait_call (Program.noted_call.mp act)).2

/-- With a free lock a consumer in its critical section waits for an item. -/
theorem Consumer.quiet (h : (system N).Reachable s) (free : s.session.mon.owner .lock = none)
    {j : Fin N} (hin : (s.consumerAt j).pc.inside) : (s.consumerAt j).pc = .waitNotEmpty := by
  have hs := Threads.reachable_coherent begin_fresh h
  obtain ⟨c, hp, -⟩ := (reachable_lock h).quiet hs.sound free (p := consumer j) hin
  obtain ⟨l, act⟩ := hs.called _ _ hp
  exact (wait_call (Program.noted_call.mp act)).2

theorem Producer.made_quiet (h : (system N).Reachable s)
    (free : s.session.mon.owner .lock = none) (i : Fin N) :
    places.made (s.producerAt i) = (s.producerAt i).pDepot.index := by
  have hq := quiet h free (i := i)
  rw [Places.made]
  cases hpc : (s.producerAt i).pc with
  | signalNotEmpty => simp [hpc, ProducerPc.inside] at hq
  | lockRelease => simp [hpc, ProducerPc.inside] at hq
  | _ => rfl

theorem Consumer.gone_quiet (h : (system N).Reachable s)
    (free : s.session.mon.owner .lock = none) (j : Fin N) :
    places.gone (s.consumerAt j) = (s.consumerAt j).cDepot.index := by
  have hq := quiet h free (j := j)
  rw [Places.gone]
  cases hpc : (s.consumerAt j).pc with
  | signalNotFull => simp [hpc, ConsumerPc.inside] at hq
  | _ => rfl

/-- While items are to be inserted some producer has not come to its end. -/
theorem exists_producer (h : (system N).Reachable s) (free : s.session.mon.owner .lock = none)
    (hn : s.record.inserted.length < 10 * N) : ∃ i, (s.producerAt i).pDepot.index < 10 := by
  by_contra hne
  push Not at hne
  have hk : ∀ i, 10 ≤ places.made (s.producerAt i) := by
    intro i
    rw [Producer.made_quiet h free]
    exact hne i
  have hsum : ∑ i, places.made (s.producerAt i) = s.record.inserted.length :=
    (places.sum_knows (reachable_knows h)).1
  have : ∑ i : Fin N, 10 ≤ ∑ i, places.made (s.producerAt i) := Finset.sum_le_sum fun i _ => hk i
  simp only [Finset.sum_const, Finset.card_univ, Fintype.card_fin, smul_eq_mul] at this
  omega

/-- While the ring holds an item some consumer expects the head. -/
theorem exists_consumer (h : (system N).Reachable s) (free : s.session.mon.owner .lock = none)
    (hs : Stocked s.record) : ∃ j, (s.consumerAt j).cDepot.index < 10 ∧
      (s.consumerAt j).expectedItem = s.buf.head := by
  obtain ⟨j, hj⟩ := places.exists_expecting (reachable_knows h) (reachable_ring h).fits hs
  have hk : (s.consumerAt j).Knows places (s.record.removedBy j) := reachable_knows h (consumer j)
  rw [Consumer.gone_quiet h free] at hj
  have hlt := index_lt hj
  have hq := Consumer.quiet h free (j := j)
  have hseeks : places.seeks (s.consumerAt j).pc := by
    cases hpc : (s.consumerAt j).pc with
    | lockRelease => simp [hpc, ConsumerPc.inside] at hq
    | signalCompleted => exact absurd (hk.done (by rw [hpc]; rfl)) (by omega)
    | finished => exact absurd (hk.done (by rw [hpc]; rfl)) (by omega)
    | _ => rfl
  exact ⟨j, hlt, Option.some.inj ((hk.seeks hseeks).symm.trans hj)⟩

/-- While items are left, a producer that has room and items or a consumer that expects the head is
awake. -/
theorem wakeups_not_lost (hN : N ≤ 15) (h : (system N).Reachable s)
    (free : s.session.mon.owner .lock = none) (hm : s.record.removed.length < 10 * N) :
    ((s.buf.wIdx + 1) % bufferSize ≠ s.buf.rIdx ∧
      ∃ i, (s.producerAt i).pDepot.index < 10 ∧ producer i ∉ s.asleep .notFull) ∨
    (s.buf.wIdx ≠ s.buf.rIdx ∧
      ∃ j, (s.consumerAt j).cDepot.index < 10 ∧ (s.consumerAt j).expectedItem = s.buf.head ∧
        consumer j ∉ s.asleep .notEmpty) := by
  have hok := reachable_ring h
  have hle := hok.fits.le
  obtain ⟨hstocked, hsupply, hroom⟩ : Paced N 0 0 s.record s.asleep := (reachable_wakeups h).free free
  have hsize : bufferSize = 32 := rfl
  rw [hsize] at hroom
  by_cases hs : Stocked s.record ∧ s.asleep .notEmpty = []
  · right
    obtain ⟨j, hj, he⟩ := exists_consumer h free hs.1
    exact ⟨hok.stocked_iff.mp hs.1, j, hj, he, by simp [hs.2]⟩
  · left
    have hfew : s.record.inserted.length < 10 * N ∧
        s.record.inserted.length < s.record.removed.length + 15 := by
      rw [not_and_or, Stocked] at hs
      rcases hs with hs | hs
      · omega
      · have := List.length_pos_iff.mpr hs
        omega
    have hawake : s.asleep .notFull = [] := List.length_eq_zero_iff.mp (by omega)
    obtain ⟨i, hi⟩ := exists_producer h free hfew.1
    refine ⟨hok.room_iff.mp ?_, i, hi, by simp [hawake]⟩
    change s.record.inserted.length + 1 < s.record.removed.length + bufferSize
    omega

/-- Three producers have stored all their digits, and the fourth sleeps before a full ring. -/
theorem wakeups_not_lost_full_ring : ∃ s : State 4, (system 4).Reachable s ∧
    s.session.mon.owner .lock = none ∧ s.asleep .notFull = [producer 3] ∧
    s.buf.contents.length = 31 ∧
    (((s.buf.wIdx + 1) % bufferSize ≠ s.buf.rIdx ∧
      ∃ i, (s.producerAt i).pDepot.index < 10 ∧ producer i ∉ s.asleep .notFull) ∨
    (s.buf.wIdx ≠ s.buf.rIdx ∧
      ∃ j, (s.consumerAt j).cDepot.index < 10 ∧ (s.consumerAt j).expectedItem = s.buf.head ∧
        consumer j ∉ s.asleep .notEmpty)) := by
  obtain ⟨s, hs, hφ⟩ := Threads.exists_of_exec (noted 4) (begin 4)
    (φ := fun s : State 4 => decide (s.session.mon.owner .lock = none ∧
      s.asleep .notFull = [producer 3] ∧ s.buf.contents.length = 31 ∧
      s.record.removed.length = 1))
    (List.replicate 5 (producer 0) ++ List.replicate 6 (consumer 0) ++
      List.replicate 45 (producer 0) ++ List.replicate 50 (producer 1) ++
      List.replicate 50 (producer 2) ++ List.replicate 13 (producer 3)) (by decide +kernel)
  obtain ⟨free, asleep, full, hm⟩ := of_decide_eq_true hφ
  exact ⟨s, hs, free, asleep, full, wakeups_not_lost (by decide) hs free (by omega)⟩

end DlxOs.Apps.Q4
