import DlxOs.Library.Threads

/-!
# Programs hosted by a larger monitor

The objects of a program have names in a host, which serves other processes and
other objects as well, and the processes of the program have places there.
`Shows` says that the host's monitor, read through names and places, is the
program's. Calls of the program are then calls on the host with the same
outcome, and what other processes do elsewhere is nothing to the program.

## Implementation notes

Places may be taken and left while the program runs. A common semaphore may be
used by others too; of it the program sees nothing, and it only signals it.
-/

namespace DlxOs.Monitors

open Monitor Session

variable {P S L C P' S' L' C' : Type*}

/-- What the objects of a program are called in the host. -/
structure Names (S L C S' L' C' : Type*) where
  sem : S → S'
  lock : L → L'
  cond : C → C'
  sem_inj : Function.Injective sem
  lock_inj : Function.Injective lock
  cond_inj : Function.Injective cond
  common : S → Prop

namespace Names

def point (ν : Names S L C S' L' C') : WaitPoint S L C → WaitPoint S' L' C'
  | .sem s => .sem (ν.sem s)
  | .lock k => .lock (ν.lock k)
  | .cond c => .cond (ν.cond c)

/-- The objects that the program does not share with others. -/
def Own (ν : Names S L C S' L' C') : WaitPoint S L C → Prop
  | .sem s => ¬ ν.common s
  | _ => True

/-- A call of the program as a call on the host; a program transfers no lock. -/
def call (ν : Names S L C S' L' C') : Call P S L C → Option (Call P' S' L' C')
  | .semWait s => some (.semWait (ν.sem s))
  | .semSignal s => some (.semSignal (ν.sem s))
  | .acquire k => some (.acquire (ν.lock k))
  | .release k => some (.release (ν.lock k))
  | .transfer _ _ => none
  | .wait c => some (.wait (ν.cond c))
  | .signal c => some (.signal (ν.cond c))

variable (ν : Names S L C S' L' C')

theorem point_injective : Function.Injective ν.point := by
  intro w v h
  cases w with
  | sem s => cases v with
    | sem t => rw [ν.sem_inj (WaitPoint.sem.inj h)]
    | _ => cases h
  | lock k => cases v with
    | lock j => rw [ν.lock_inj (WaitPoint.lock.inj h)]
    | _ => cases h
  | cond c => cases v with
    | cond d => rw [ν.cond_inj (WaitPoint.cond.inj h)]
    | _ => cases h

/-- A call of the program is made on the object of the same name. -/
theorem call_target {c : Call P S L C} {d : Call P' S' L' C'} (h : ν.call c = some d) :
    d.target = ν.point c.target := by
  cases c <;> cases h <;> rfl

theorem lock_ne_point {j : L'} (hj : ∀ k, j ≠ ν.lock k) (w : WaitPoint S L C) :
    WaitPoint.lock j ≠ ν.point w := by
  cases w with
  | lock k => exact fun e => hj k (WaitPoint.lock.inj e)
  | _ => exact fun e => by cases e

theorem common_ne_point {s : S} (hs : ν.common s) (w : WaitPoint S L C) (hw : ν.Own w) :
    WaitPoint.sem (ν.sem s) ≠ ν.point w := by
  cases w with
  | sem t => exact fun e => hw (ν.sem_inj (WaitPoint.sem.inj e) ▸ hs)
  | _ => exact fun e => by cases e

end Names

/-- A process that has a place shares it with no other one. -/
def Distinct (place : P → Option P') : Prop := ∀ p q r, place p = some r → place q = some r → p = q

theorem Distinct.take [DecidableEq P] {place : P → Option P'} {p : P} {r : P'} (h : Distinct place)
    (hr : ∀ q, place q ≠ some r) : Distinct (Function.update place p (some r)) := by
  intro q q' t hq hq'
  by_cases e : q = p <;> by_cases e' : q' = p
  · rw [e, e']
  · rw [Function.update_of_ne e'] at hq'
    rw [e, Function.update_self] at hq
    exact absurd (hq ▸ hq') (hr q')
  · rw [Function.update_of_ne e] at hq
    rw [e', Function.update_self] at hq'
    exact absurd (hq' ▸ hq) (hr q)
  · rw [Function.update_of_ne e] at hq
    rw [Function.update_of_ne e'] at hq'
    exact h q q' t hq hq'

theorem Distinct.drop [DecidableEq P] {place : P → Option P'} {p : P} (h : Distinct place) :
    Distinct (Function.update place p none) := by
  intro q q' t hq hq'
  have hne : ∀ q, Function.update place p none q = some t → q ≠ p := by
    rintro q hq rfl
    simp at hq
  rw [Function.update_of_ne (hne q hq)] at hq
  rw [Function.update_of_ne (hne q' hq')] at hq'
  exact h q q' t hq hq'

/-- The host's monitor, read through names and places, is the program's. -/
structure Shows (ν : Names S L C S' L' C') (place : P → Option P') (m' : Monitor P' S' L' C')
    (m : Monitor P S L C) : Prop where
  waiting : ∀ w, ν.Own w → (m'.waiting (ν.point w)).map some = (m.waiting w).map place
  count : ∀ s, ¬ ν.common s → m'.count (ν.sem s) = m.count s
  owner : ∀ k, (m'.owner (ν.lock k)).map some = (m.owner k).map place
  bound : ∀ c, m'.bound (ν.cond c) = ν.lock (m.bound c)
  alone : ∀ s, ν.common s → m.waiting (.sem s) = []

namespace Shows

variable {ν : Names S L C S' L' C'} {place : P → Option P'} {m' : Monitor P' S' L' C'}
  {m : Monitor P S L C} {p : P} {r : P'}

/-- Nobody waits in the program exactly if nobody waits in the host. -/
theorem waiting_nil (h : Shows ν place m' m) {w : WaitPoint S L C} (hw : ν.Own w) :
    m.waiting w = [] ↔ m'.waiting (ν.point w) = [] := by
  rw [← List.map_eq_nil_iff (f := place), ← h.waiting w hw, List.map_eq_nil_iff]

/-- Who is first in the program is first in the host. -/
theorem waiting_cons (h : Shows ν place m' m) {w : WaitPoint S L C} (hw : ν.Own w) {q : P}
    {rest : List P} (e : m.waiting w = q :: rest) :
    ∃ r rest', m'.waiting (ν.point w) = r :: rest' ∧ place q = some r ∧
      rest'.map some = rest.map place := by
  have hm := h.waiting w hw
  rw [e] at hm
  cases e' : m'.waiting (ν.point w) with
  | nil => rw [e'] at hm; cases hm
  | cons r rest' =>
      rw [e'] at hm
      obtain ⟨hr, hrest⟩ := List.cons.inj hm
      exact ⟨r, rest', rfl, hr.symm, hrest⟩

/-- A waiting process has a place and waits there. -/
theorem mem_waiting (h : Shows ν place m' m) {w : WaitPoint S L C} (hp : p ∈ m.waiting w) :
    ∃ r, place p = some r ∧ r ∈ m'.waiting (ν.point w) := by
  have hw : ν.Own w := by
    cases w with
    | sem s => exact fun hs => by simp [h.alone s hs] at hp
    | _ => trivial
  have hm : place p ∈ (m'.waiting (ν.point w)).map some := by
    rw [h.waiting w hw]
    exact List.mem_map_of_mem hp
  obtain ⟨r, hr, e⟩ := List.mem_map.mp hm
  exact ⟨r, e.symm, hr⟩

/-- Who waits in the host for an object of the program's own is one of its processes. -/
theorem of_mem_host (h : Shows ν place m' m) {w : WaitPoint S L C} (hw : ν.Own w)
    (hr : r ∈ m'.waiting (ν.point w)) : ∃ p ∈ m.waiting w, place p = some r := by
  have hm : some r ∈ (m.waiting w).map place := by
    rw [← h.waiting w hw]
    exact List.mem_map_of_mem hr
  exact List.mem_map.mp hm

/-- An owner has a place and owns the lock there. -/
theorem owner_place (h : Shows ν place m' m) {k : L} (ho : m.owner k = some p) :
    ∃ r, place p = some r ∧ m'.owner (ν.lock k) = some r := by
  have hk := h.owner k
  rw [ho] at hk
  obtain ⟨r, hr, e⟩ := Option.map_eq_some_iff.mp hk
  exact ⟨r, e.symm, hr⟩

/-- Who owns a lock of the program is one of its processes. -/
theorem owner_of_host (h : Shows ν place m' m) {k : L} (ho : m'.owner (ν.lock k) = some r) :
    ∃ p, m.owner k = some p ∧ place p = some r := by
  have hk := h.owner k
  rw [ho] at hk
  exact Option.map_eq_some_iff.mp hk.symm

theorem owner_iff (h : Shows ν place m' m) (hd : Distinct place) (hp : place p = some r) {k : L} :
    m'.owner (ν.lock k) = some r ↔ m.owner k = some p := by
  refine ⟨fun ho => ?_, fun ho => ?_⟩
  · obtain ⟨q, hq, e⟩ := h.owner_of_host ho
    rwa [hd p q r hp e]
  · obtain ⟨r', e, hr⟩ := h.owner_place ho
    rwa [Option.some.inj (hp.symm.trans e)]

/-- Only the places of the waiting processes and of the owners matter. -/
theorem move (h : Shows ν place m' m) {place' : P → Option P'}
    (hw : ∀ w, ∀ q ∈ m.waiting w, place' q = place q)
    (ho : ∀ k q, m.owner k = some q → place' q = place q) : Shows ν place' m' m where
  waiting w own := by
    rw [h.waiting w own]
    exact (List.map_congr_left (hw w)).symm
  count := h.count
  owner k := by
    rw [h.owner k]
    cases e : m.owner k with
    | none => rfl
    | some q => simp [ho k q e]
  bound := h.bound
  alone := h.alone

section Updates

variable [DecidableEq P] [DecidableEq S] [DecidableEq L] [DecidableEq C]
  [DecidableEq P'] [DecidableEq S'] [DecidableEq L'] [DecidableEq C']

omit [DecidableEq P] [DecidableEq P'] in
theorem setWaiting (h : Shows ν place m' m) {w : WaitPoint S L C} {rs : List P'} {ps : List P}
    (e : rs.map some = ps.map place) (hw : ν.Own w) :
    Shows ν place (m'.setWaiting (ν.point w) rs) (m.setWaiting w ps) where
  waiting v hv := by
    by_cases hvw : v = w
    · subst hvw
      rw [setWaiting_self, setWaiting_self, e]
    · rw [setWaiting_of_ne _ _ _ _ hvw,
        setWaiting_of_ne _ _ _ _ fun c => hvw (ν.point_injective c)]
      exact h.waiting v hv
  count := h.count
  owner := h.owner
  bound := h.bound
  alone s hs := by
    rw [setWaiting_of_ne _ _ _ _ fun (c : WaitPoint.sem s = w) => (c ▸ hw : ν.Own (.sem s)) hs]
    exact h.alone s hs

omit [DecidableEq P] [DecidableEq P'] in
theorem enqueue (h : Shows ν place m' m) {w : WaitPoint S L C} (hw : ν.Own w)
    (hp : place p = some r) : Shows ν place (m'.enqueue (ν.point w) r) (m.enqueue w p) :=
  h.setWaiting (by simp [h.waiting w hw, hp]) hw

omit [DecidableEq P] [DecidableEq P'] [DecidableEq L] [DecidableEq L'] [DecidableEq C]
  [DecidableEq C'] in
theorem setCount (h : Shows ν place m' m) (s : S) (n : Int) :
    Shows ν place (m'.setCount (ν.sem s) n) (m.setCount s n) where
  waiting := h.waiting
  count t ht := by
    by_cases e : t = s
    · subst e
      rw [setCount_self, setCount_self]
    · rw [setCount_of_ne _ _ _ e, setCount_of_ne _ _ _ fun c => e (ν.sem_inj c)]
      exact h.count t ht
  owner := h.owner
  bound := h.bound
  alone := h.alone

omit [DecidableEq P] [DecidableEq P'] [DecidableEq S] [DecidableEq S'] [DecidableEq C]
  [DecidableEq C'] in
theorem setOwner (h : Shows ν place m' m) (k : L) {o' : Option P'} {o : Option P}
    (e : o'.map some = o.map place) :
    Shows ν place (m'.setOwner (ν.lock k) o') (m.setOwner k o) where
  waiting := h.waiting
  count := h.count
  owner j := by
    by_cases ej : j = k
    · subst ej
      rw [setOwner_self, setOwner_self, e]
    · rw [setOwner_of_ne _ _ _ _ ej, setOwner_of_ne _ _ _ _ fun c => ej (ν.lock_inj c)]
      exact h.owner j
  bound := h.bound
  alone := h.alone

omit [DecidableEq P] [DecidableEq P'] in
theorem handOver (h : Shows ν place m' m) (k : L) :
    Shows ν place (m'.handOver (ν.lock k)) (m.handOver k) := by
  cases e : m.waiting (.lock k) with
  | nil =>
      have e' : m'.waiting (.lock (ν.lock k)) = [] := (h.waiting_nil (w := .lock k) trivial).mp e
      simpa only [Monitor.handOver, e, e'] using h.setOwner k rfl
  | cons q rest =>
      obtain ⟨r, rest', e', hq, hrest⟩ := h.waiting_cons (w := .lock k) trivial e
      have e' : m'.waiting (.lock (ν.lock k)) = r :: rest' := e'
      simp only [Monitor.handOver, e, e']
      exact (h.setWaiting (w := .lock k) hrest trivial).setOwner k (by simp [hq])

/-! ### Changes elsewhere in the host -/

omit [DecidableEq P] [DecidableEq P'] [DecidableEq S] [DecidableEq L] [DecidableEq C] in
theorem setWaiting_elsewhere (h : Shows ν place m' m) {v : WaitPoint S' L' C'}
    (hv : ∀ w, ν.Own w → v ≠ ν.point w) (rs : List P') : Shows ν place (m'.setWaiting v rs) m where
  waiting w hw := by
    rw [setWaiting_of_ne _ _ _ _ (hv w hw).symm]
    exact h.waiting w hw
  count := h.count
  owner := h.owner
  bound := h.bound
  alone := h.alone

omit [DecidableEq P] [DecidableEq P'] [DecidableEq S] [DecidableEq L] [DecidableEq C]
  [DecidableEq L'] [DecidableEq C'] in
theorem setCount_elsewhere (h : Shows ν place m' m) {t : S'}
    (ht : ∀ w, ν.Own w → WaitPoint.sem t ≠ ν.point w) (n : Int) :
    Shows ν place (m'.setCount t n) m where
  waiting := h.waiting
  count s hs := by
    rw [setCount_of_ne _ _ _ fun e => ht (.sem s) hs (congrArg WaitPoint.sem e.symm)]
    exact h.count s hs
  owner := h.owner
  bound := h.bound
  alone := h.alone

omit [DecidableEq P] [DecidableEq P'] [DecidableEq S] [DecidableEq S'] [DecidableEq L]
  [DecidableEq C] [DecidableEq C'] in
theorem setOwner_elsewhere (h : Shows ν place m' m) {j : L'} (hj : ∀ k, j ≠ ν.lock k)
    (o : Option P') : Shows ν place (m'.setOwner j o) m where
  waiting := h.waiting
  count := h.count
  owner k := by
    rw [setOwner_of_ne _ _ _ _ (hj k).symm]
    exact h.owner k
  bound := h.bound
  alone := h.alone

omit [DecidableEq P] [DecidableEq P'] [DecidableEq S] [DecidableEq L] [DecidableEq C] in
theorem handOver_elsewhere (h : Shows ν place m' m) {j : L'} (hj : ∀ k, j ≠ ν.lock k) :
    Shows ν place (m'.handOver j) m := by
  rw [Monitor.handOver]
  split
  · exact h.setOwner_elsewhere hj _
  · exact (h.setWaiting_elsewhere (fun w _ => ν.lock_ne_point hj w) _).setOwner_elsewhere hj _

omit [DecidableEq P] [DecidableEq S] [DecidableEq L] [DecidableEq C] in
/-- What other processes do with other objects is nothing to the program. -/
theorem elsewhere (h : Shows ν place m' m) {q : P'} (hq : ∀ p, place p ≠ some q)
    {d : Call P' S' L' C'} (ht : ∀ w, ν.Own w → d.target ≠ ν.point w) :
    Shows ν place (m'.call q d).2 m := by
  -- a condition variable of others may be bound to a lock of the program
  have other : ∀ j, m'.owner j = some q → ∀ k, j ≠ ν.lock k := by
    rintro _ ho k rfl
    obtain ⟨p, -, e⟩ := h.owner_of_host ho
    exact hq p e
  have hcase := call_cases m' q d
  generalize (m'.call q d).1 = o, (m'.call q d).2 = n at hcase ⊢
  cases hcase with
  | semTake s _ => exact h.setCount_elsewhere ht _
  | semSleep s _ => exact h.setWaiting_elsewhere ht _
  | semCount s _ => exact h.setCount_elsewhere ht _
  | semWake s _ _ => exact h.setWaiting_elsewhere ht _
  | acquireFree k _ =>
      exact h.setOwner_elsewhere (fun j e => ht (.lock j) trivial (congrArg WaitPoint.lock e)) _
  | acquireSleep k _ _ => exact h.setWaiting_elsewhere ht _
  | release k ho => exact h.handOver_elsewhere (other k ho)
  | transfer k r ho =>
      exact (h.setOwner_elsewhere (other k ho) _).setWaiting_elsewhere ht _
  | wait c ho => exact (h.setWaiting_elsewhere ht _).handOver_elsewhere (other _ ho)
  | signal c ho _ =>
      exact ((h.setWaiting_elsewhere ht _).setOwner_elsewhere (other _ ho) _).setWaiting_elsewhere
        (fun w _ => ν.lock_ne_point (other _ ho) w) _
  | _ => exact h

omit [DecidableEq P] [DecidableEq P'] [DecidableEq S'] [DecidableEq L'] [DecidableEq C']
  [DecidableEq L] [DecidableEq C] in
theorem setCount_common (h : Shows ν place m' m) {s : S} (hs : ν.common s) (n : Int) :
    Shows ν place m' (m.setCount s n) where
  waiting := h.waiting
  count t ht := by
    have hne : t ≠ s := fun e => ht (e ▸ hs)
    rw [setCount_of_ne _ _ _ hne]
    exact h.count t ht
  owner := h.owner
  bound := h.bound
  alone := h.alone

/-- A signal on a common semaphore returns, and others may be woken by it. -/
theorem signal_common (h : Shows ν place m' m) {s : S} (hs : ν.common s) :
    (m'.call r (.semSignal (ν.sem s))).1 = (m.call p (.semSignal s)).1 ∧
      Shows ν place (m'.call r (.semSignal (ν.sem s))).2 (m.call p (.semSignal s)).2 := by
  have guest : m.call p (.semSignal s) = (.returned true, m.setCount s (m.count s + 1)) := by
    simp only [Monitor.call, h.alone s hs]
  rw [guest]
  simp only [Monitor.call]
  split
  · exact ⟨rfl, (h.setCount_elsewhere (ν.common_ne_point hs) _).setCount_common hs _⟩
  · split
    · exact ⟨rfl, (h.setWaiting_elsewhere (ν.common_ne_point hs) _).setCount_common hs _⟩
    · exact ⟨rfl, (h.setCount_elsewhere (ν.common_ne_point hs) _).setCount_common hs _⟩

/-- A call of the program and the call on the host have the same outcome and the same effect. -/
theorem call (h : Shows ν place m' m) (hd : Distinct place) (hp : place p = some r)
    {c : Call P S L C} {d : Call P' S' L' C'} (hc : ν.call c = some d)
    (hs : ∀ s, ν.common s → c ≠ .semWait s) :
    (m'.call r d).1 = (m.call p c).1 ∧ Shows ν place (m'.call r d).2 (m.call p c).2 := by
  cases c with
  | semWait s =>
      cases hc
      have own : ¬ ν.common s := fun e => hs s e rfl
      simp only [Monitor.call, h.count s own]
      split_ifs
      · exact ⟨rfl, h.enqueue (w := .sem s) own hp⟩
      · exact ⟨rfl, h.setCount s _⟩
  | semSignal s =>
      cases hc
      by_cases own : ν.common s
      · exact h.signal_common own
      · simp only [Monitor.call, h.count s own]
        cases e : m.waiting (.sem s) with
        | nil =>
            have e' : m'.waiting (.sem (ν.sem s)) = [] := (h.waiting_nil (w := .sem s) own).mp e
            simp only [e']
            exact ⟨trivial, h.setCount s _⟩
        | cons q rest =>
            obtain ⟨r, rest', e', -, hrest⟩ := h.waiting_cons (w := .sem s) own e
            have e' : m'.waiting (.sem (ν.sem s)) = r :: rest' := e'
            simp only [e']
            split_ifs
            · exact ⟨rfl, h.setWaiting (w := .sem s) hrest own⟩
            · exact ⟨rfl, h.setCount s _⟩
  | acquire k =>
      cases hc
      have free : (m'.owner (ν.lock k)).isSome = (m.owner k).isSome := by
        rw [← Option.isSome_map (f := some), h.owner k, Option.isSome_map]
      simp only [Monitor.call, h.owner_iff hd hp, free]
      split_ifs
      · exact ⟨rfl, h⟩
      · exact ⟨rfl, h.enqueue (w := .lock k) trivial hp⟩
      · exact ⟨rfl, h.setOwner k (by simp [hp])⟩
  | release k =>
      cases hc
      simp only [Monitor.call, h.owner_iff hd hp]
      split_ifs
      · exact ⟨rfl, h.handOver k⟩
      · exact ⟨rfl, h⟩
  | transfer k q => cases hc
  | wait c =>
      cases hc
      simp only [Monitor.call, h.bound c, h.owner_iff hd hp]
      split_ifs
      · exact ⟨rfl, (h.enqueue (w := .cond c) trivial hp).handOver _⟩
      · exact ⟨rfl, h⟩
  | signal c =>
      cases hc
      simp only [Monitor.call, h.bound c, h.owner_iff hd hp]
      split_ifs with ho
      · cases e : m.waiting (.cond c) with
        | nil =>
            have e' : m'.waiting (.cond (ν.cond c)) = [] :=
              (h.waiting_nil (w := .cond c) trivial).mp e
            simp only [e']
            exact ⟨trivial, h⟩
        | cons q rest =>
            obtain ⟨t, rest', e', hq, hrest⟩ := h.waiting_cons (w := .cond c) trivial e
            have e' : m'.waiting (.cond (ν.cond c)) = t :: rest' := e'
            simp only [e']
            exact ⟨trivial, ((h.setWaiting (w := .cond c) hrest trivial).setOwner _
              (by simp [hq])).enqueue (w := .lock (m.bound c)) trivial hp⟩
      · exact ⟨rfl, h⟩

end Updates

end Shows

/-- The host's session, read through names and places, is the program's. -/
structure Hosts (ν : Names S L C S' L' C') (place : P → Option P') (σ' : Session P' S' L' C')
    (σ : Session P S L C) : Prop extends Shows ν place σ'.mon σ.mon where
  distinct : Distinct place
  pending : ∀ p r, place p = some r → σ'.pending r = (σ.pending p).bind ν.call
  away : ∀ p, place p = none → σ.pending p = none
  inuse' : ∀ w, σ'.inuse (ν.point w) = true
  inuse : ∀ w, σ.inuse w = true

/-- What happens in the host without the program: other processes act, and on other objects. -/
def Event.Elsewhere (ν : Names S L C S' L' C') (place : P → Option P') : Event P' S' L' C' → Prop
  | .call q d _ => (∀ p, place p ≠ some q) ∧ ∀ w, ν.Own w → d.target ≠ ν.point w
  | .ret q _ => ∀ p, place p ≠ some q
  | _ => True

namespace Hosts

variable {ν : Names S L C S' L' C'} {place : P → Option P'} {σ' σ'' : Session P' S' L' C'}
  {σ : Session P S L C} {p : P} {r : P'}
  [DecidableEq P] [DecidableEq S] [DecidableEq L] [DecidableEq C]
  [DecidableEq P'] [DecidableEq S'] [DecidableEq L'] [DecidableEq C']

omit [DecidableEq P] [DecidableEq S] [DecidableEq L] [DecidableEq C] [DecidableEq P']
  [DecidableEq S'] [DecidableEq L'] [DecidableEq C'] in
theorem ne_unused (h : Hosts ν place σ' σ) {v : WaitPoint S' L' C'} (hv : σ'.inuse v = false)
    (w : WaitPoint S L C) : v ≠ ν.point w := fun e => by
  rw [e, h.inuse' w] at hv
  cases hv

omit [DecidableEq P] [DecidableEq S] [DecidableEq L] [DecidableEq C] [DecidableEq P']
  [DecidableEq S'] [DecidableEq L'] [DecidableEq C'] in
/-- The host changes in nothing that the program sees. -/
theorem changed (h : Hosts ν place σ' σ) (hm : Shows ν place σ''.mon σ.mon)
    (hp : ∀ p r, place p = some r → σ''.pending r = σ'.pending r)
    (hu : ∀ w, σ''.inuse (ν.point w) = true) : Hosts ν place σ'' σ where
  toShows := hm
  distinct := h.distinct
  pending p r e := (hp p r e).trans (h.pending p r e)
  away := h.away
  inuse' := hu
  inuse := h.inuse

omit [DecidableEq P] [DecidableEq S] [DecidableEq L] [DecidableEq C] [DecidableEq P']
  [DecidableEq S'] [DecidableEq L'] [DecidableEq C'] in
/-- A process of the program that is awake is awake in the host. -/
theorem awake (h : Hosts ν place σ' σ) (sound : σ'.Sound) (hp : place p = some r)
    (quiet : ∀ s, ν.common s → σ.pending p ≠ some (.semWait s)) (ha : σ.Awake p) :
    σ'.Awake r := by
  intro v hv
  obtain ⟨d, hd, hpoint⟩ := sound.pending v r hv
  obtain ⟨c, hc, e⟩ := Option.bind_eq_some_iff.mp ((h.pending p r hp).symm.trans hd)
  have absent : ∀ w, ν.Own w → v ≠ ν.point w := by
    rintro w hw rfl
    obtain ⟨q, hq, hqr⟩ := h.toShows.of_mem_host hw hv
    exact ha w (h.distinct q p r hqr hp ▸ hq)
  cases c with
  | semWait s =>
      cases e
      exact absent (.sem s) (fun hs => quiet s hs hc) (Option.some.inj hpoint).symm
  | acquire k =>
      cases e
      exact absent (.lock k) trivial (Option.some.inj hpoint).symm
  | wait b =>
      cases e
      exact absent (.cond b) trivial (Option.some.inj hpoint).symm
  | signal b =>
      cases e
      refine absent (.lock (σ.mon.bound b)) trivial ((Option.some.inj hpoint).symm.trans ?_)
      exact congrArg WaitPoint.lock (h.bound b)
  | _ => cases e <;> cases hpoint

omit [DecidableEq P] [DecidableEq S] [DecidableEq L] [DecidableEq C] in
/-- What happens without the program is nothing to it. -/
theorem elsewhere (h : Hosts ν place σ' σ) {e : Event P' S' L' C'} (hs : σ'.Step e σ'')
    (he : e.Elsewhere ν place) : Hosts ν place σ'' σ := by
  cases hs with
  | idle => exact h
  | exit _ => exact h
  | @newSem s n hu =>
      have hne := h.ne_unused hu
      exact h.changed (h.setCount_elsewhere (fun w _ => hne w) n) (fun p r _ => rfl) fun w => by
        simp [(hne w).symm, h.inuse' w]
  | @newLock k hu =>
      have hne := h.ne_unused hu
      exact h.changed (h.setOwner_elsewhere (fun j e => hne (.lock j) (congrArg _ e)) none)
        (fun p r _ => rfl) fun w => by simp [(hne w).symm, h.inuse' w]
  | @newCond c k hu hk =>
      have hne := h.ne_unused hu
      refine h.changed ⟨h.waiting, h.count, h.owner, fun b => ?_, h.alone⟩ (fun p r _ => rfl)
        fun w => by simp [bindCond, (hne w).symm, h.inuse' w]
      have hb : ν.cond b ≠ c := fun e => hne (.cond b) (congrArg _ e.symm)
      exact (Function.update_of_ne hb ..).trans (h.bound b)
  | @call q d hq hu =>
      obtain ⟨hne, ht⟩ := he
      exact h.changed (h.toShows.elsewhere hne ht)
        (fun p r hr => perform_pending_of_ne σ' d fun e : r = q => hne p (e ▸ hr)) h.inuse'
  | @ret q d hq ha =>
      exact h.changed h.toShows
        (fun p r hr => Function.update_of_ne (fun e : r = q => he p (e ▸ hr)) ..) h.inuse'

/-- A call of a process of the program. -/
theorem call (h : Hosts ν place σ' σ) (hp : place p = some r) {c : Call P S L C}
    {d : Call P' S' L' C'} (hc : ν.call c = some d) (hs : ∀ s, ν.common s → c ≠ .semWait s) :
    (σ'.mon.call r d).1 = (σ.mon.call p c).1 ∧ Hosts ν place (σ'.perform r d) (σ.perform p c) := by
  obtain ⟨hr, hm⟩ := h.toShows.call h.distinct hp hc hs
  refine ⟨hr, hm, h.distinct, fun q t hq => ?_, fun q hq => ?_, h.inuse', h.inuse⟩
  · by_cases e : q = p
    · subst e
      obtain rfl : r = t := Option.some.inj (hp.symm.trans hq)
      simp only [perform, hr]
      split_ifs
      · simp [hc]
      · exact h.pending q r hp
    · rw [perform_pending_of_ne _ _ e, perform_pending_of_ne]
      · exact h.pending q t hq
      · rintro rfl
        exact e (h.distinct q p t hq hp)
  · have e : q ≠ p := by
      rintro rfl
      rw [hp] at hq
      cases hq
    rw [perform_pending_of_ne _ _ e]
    exact h.away q hq

omit [DecidableEq S] [DecidableEq L] [DecidableEq C] [DecidableEq S'] [DecidableEq L']
  [DecidableEq C'] in
/-- The return of a process of the program. -/
theorem ret (h : Hosts ν place σ' σ) (hp : place p = some r) {d : Call P' S' L' C'}
    (hd : σ'.pending r = some d) (ha : σ'.Awake r) :
    ∃ c, σ.pending p = some c ∧ ν.call c = some d ∧ σ.Awake p ∧
      Hosts ν place (σ'.finish r) (σ.finish p) := by
  have hpend := h.pending p r hp
  rw [hd] at hpend
  obtain ⟨c, hc, e⟩ := Option.bind_eq_some_iff.mp hpend.symm
  refine ⟨c, hc, e, fun w hw => ?_, h.toShows, h.distinct, fun q t hq => ?_, fun q hq => ?_,
    h.inuse', h.inuse⟩
  · obtain ⟨t, ht, hm⟩ := h.mem_waiting hw
    obtain rfl : r = t := Option.some.inj (hp.symm.trans ht)
    exact ha _ hm
  · by_cases e : q = p
    · subst e
      obtain rfl : r = t := Option.some.inj (hp.symm.trans hq)
      simp [finish]
    · have hne : t ≠ r := fun c => e (h.distinct q p r (c ▸ hq) hp)
      simpa [finish, e, hne] using h.pending q t hq
  · have e : q ≠ p := by
      rintro rfl
      rw [hp] at hq
      cases hq
    simpa [finish, e] using h.away q hq

omit [DecidableEq S] [DecidableEq L] [DecidableEq C] [DecidableEq P'] [DecidableEq S']
  [DecidableEq L'] [DecidableEq C'] in
/-- A process of the program takes a place that nobody has. -/
theorem enter (h : Hosts ν place σ' σ) (hp : place p = none) (hr : ∀ q, place q ≠ some r)
    (outside : σ'.pending r = none) : Hosts ν (Function.update place p (some r)) σ' σ := by
  have placed : ∀ q t, place q = some t → q ≠ p := by
    rintro q t hq rfl
    rw [hp] at hq
    cases hq
  refine ⟨h.move (fun w q hq => ?_) (fun k q hk => ?_), h.distinct.take hr,
    fun q t hq => ?_, fun q hq => ?_, h.inuse', h.inuse⟩
  · obtain ⟨t, ht, -⟩ := h.mem_waiting hq
    exact Function.update_of_ne (placed q t ht) ..
  · obtain ⟨t, ht, -⟩ := h.owner_place hk
    exact Function.update_of_ne (placed q t ht) ..
  · by_cases e : q = p
    · subst e
      obtain rfl : r = t := by simpa using hq
      rw [outside, h.away q hp]
      rfl
    · rw [Function.update_of_ne e] at hq
      exact h.pending q t hq
  · by_cases e : q = p
    · subst e
      simp at hq
    · rw [Function.update_of_ne e] at hq
      exact h.away q hq

omit [DecidableEq S] [DecidableEq L] [DecidableEq C] [DecidableEq P'] [DecidableEq S']
  [DecidableEq L'] [DecidableEq C'] in
/-- A process of the program leaves its place outside all calls and owns nothing. -/
theorem leave (h : Hosts ν place σ' σ) (outside : σ.pending p = none) (sound : σ.Sound)
    (ho : ∀ k, σ.mon.owner k ≠ some p) : Hosts ν (Function.update place p none) σ' σ := by
  refine ⟨h.move (fun w q hq => ?_) (fun k q hk => ?_), h.distinct.drop,
    fun q t hq => ?_, fun q hq => ?_, h.inuse', h.inuse⟩
  · exact Function.update_of_ne (fun e : q = p => sound.awake outside w (e ▸ hq)) ..
  · exact Function.update_of_ne (fun e : q = p => ho k (e ▸ hk)) ..
  · by_cases e : q = p
    · subst e
      simp at hq
    · rw [Function.update_of_ne e] at hq
      exact h.pending q t hq
  · by_cases e : q = p
    · exact e ▸ outside
    · rw [Function.update_of_ne e] at hq
      exact h.away q hq

end Hosts

end DlxOs.Monitors
