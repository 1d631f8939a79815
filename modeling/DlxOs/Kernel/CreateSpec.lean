import DlxOs.Kernel.CallSpec

/-!
# The creation of semaphores, locks and condition variables

A creation takes the first unused entry of its table, with an empty queue. It
changes nothing when the table is full.
-/

namespace DlxOs.Kernel

open Queue Monitors

variable {K K' : KState} {S : Pool KQueue PcbPtr} {p : PcbPtr} {w : WaitObject}

/-- Object `w` is new, and nothing else changed for the processes. -/
structure Created (K : KState) (w : WaitObject) (K' : KState) : Prop where
  table : Table K'
  inuse : K'.inuse = Function.update K.inuse w true
  list : K'.list = K.list
  current : K'.currentPCB = K.currentPCB
  console : K'.console = K.console

/-- A new object gets an empty queue. -/
theorem LinkedBy.create (hS : LinkedBy K S) (hw : K.inuse w = false)
    (hheap : K'.heap = (aQueueInit K.heap (some (.named (.waiting w)))).2)
    (hpcbs : K'.pcbs = K.pcbs) (hinuse : K'.inuse = Function.update K.inuse w true) :
    LinkedBy K' { S.setItems (.named (.waiting w)) [] with
      known := insert (.named (.waiting w)) S.known } ∧ K'.list = K.list := by
  have hfresh : .named (.waiting w) ∉ S.known := fun hm => by
    have : K.ready (.waiting w) = true := (hS.known _).mp hm
    rw [show K.ready (.waiting w) = K.inuse w from rfl, hw] at this
    cases this
  have hready : ∀ q, K'.ready q = true ↔ q = .waiting w ∨ K.ready q = true := by
    intro q
    cases q with
    | waiting v =>
        change K'.inuse v = true ↔ _ ∨ K.inuse v = true
        rw [hinuse]
        by_cases e : v = w
        · subst e
          simp
        · simp [e]
    | _ => simp [KState.ready]
  have hold : ∀ q, q ≠ .waiting w →
      (S.setItems (.named (.waiting w)) []).items (.named q) = S.items (.named q) := fun q e =>
    Pool.setItems_of_ne _ (by simpa using e) _
  have hnone : (S.setItems (.named (.waiting w)) []).items (.named (.waiting w)) = [] :=
    Pool.setItems_self ..
  have linked : LinkedBy K' { S.setItems (.named (.waiting w)) [] with
      known := insert (.named (.waiting w)) S.known } := by
    refine ⟨?_, fun q => ?_, fun q hq l hl => ?_, fun l => ?_, fun q hq l hl p e => ?_⟩
    · rw [hheap]
      exact hS.represents.init hfresh
    · rw [hready, ← hS.known]
      simp
    · by_cases e : q = .waiting w
      · subst e
        rw [hnone] at hl
        cases hl
      · rw [hold q e] at hl
        exact hS.object q (((hready q).mp hq).resolve_left e) l hl
    · obtain ⟨q, hq, hl⟩ := hS.attached l
      refine ⟨q, by simp [hq], ?_⟩
      have e : q ≠ .named (.waiting w) := fun e => hfresh (e ▸ hq)
      rwa [Pool.setItems_of_ne _ e]
    · have e' : q ≠ .waiting w := fun c => by
        rw [c] at hq
        cases hq
      rw [hold q e'] at hl
      rw [hpcbs]
      exact hS.own q hq l hl p e
  refine ⟨linked, funext fun q => ?_⟩
  by_cases e : q = .waiting w
  · subst e
    rw [linked.list_eq ((hready _).mpr (.inl rfl)), KState.list, if_neg]
    · rw [pids, hnone]
      rfl
    · rw [show K.ready (.waiting w) = K.inuse w from rfl, hw]
      simp
  · by_cases hq : K.ready q = true
    · rw [linked.list_eq ((hready q).mpr (.inr hq)), hS.list_eq hq, pids, pids, hold q e]
      rfl
    · have hq' : ¬ K'.ready q = true := fun c => hq (((hready q).mp c).resolve_left e)
      rw [KState.list, KState.list, if_neg hq, if_neg hq']

theorem Table.created {X : KState} (h : Table K) (hw : K.inuse w = false)
    (hheap : X.heap = (aQueueInit K.heap (some (.named (.waiting w)))).2)
    (hpcbs : X.pcbs = K.pcbs) (hinuse : X.inuse = Function.update K.inuse w true)
    (hcur : X.currentPCB = K.currentPCB) (hcon : X.console = K.console) : Created K w X := by
  obtain ⟨S, hS⟩ := h.linked
  obtain ⟨hS', hl⟩ := hS.create hw hheap hpcbs hinuse
  refine ⟨⟨⟨_, hS'⟩, hl ▸ h.sparse, fun q st hq p hp => ?_⟩, hinuse, hl, hcur, hcon⟩
  rw [KState.statusOf, hpcbs]
  exact h.status q st hq p (hl ▸ hp)

/-- The first free entry of a table is not in use. -/
theorem find_unused {n : Nat} {used : Fin n → Bool} {i : Fin n}
    (h : (List.finRange n).find? (fun i => !used i) = some i) : used i = false := by
  have := List.find?_some h
  simpa using this

/-- A search without result means that all entries are in use. -/
theorem find_full {n : Nat} {used : Fin n → Bool}
    (h : (List.finRange n).find? (fun i => !used i) = none) (i : Fin n) : used i = true := by
  have := List.find?_eq_none.mp h i (List.mem_finRange i)
  simpa using this

theorem semCreate_spec (h : Table K) (n : Int) : ∃ r K', (semCreate n).run K = .ok (r, K') ∧
    ((r = syncFail ∧ K' = K ∧ ∀ s, K.inuse (.sem s) = true) ∨
      ∃ s : SemPtr, r = s.val ∧ K.inuse (.sem s) = false ∧
      Created K (.sem s) K' ∧ K'.monitor = K.monitor.setCount s n ∧ K'.locks = K.locks ∧
      K'.conds = K.conds) := by
  cases hf : (List.finRange maxSems).find? fun s => !(K.sems s).inuse with
  | none =>
      refine ⟨syncFail, K, ?_, .inl ⟨rfl, rfl, find_full hf⟩⟩
      rw [semCreate, run_bind_ok disableIntrs_run, get_bind_run]
      have hfind : ((List.finRange maxSems).find? fun s => !((K.setIntrs 15).sems s).inuse) =
          none := hf
      simp only [hfind]
      rfl
  | some s =>
      have hs : K.inuse (.sem s) = false := find_unused hf
      let K₁ : KState := { K with sems := Function.update K.sems s { K.sems s with inuse := true } }
      let K₂ := (K₁.setHeap (aQueueInit K.heap (some (.named (.waiting (.sem s))))).2).setCount s n
      have hinuse : K₂.inuse = Function.update K.inuse (.sem s) true := by
        funext w
        cases w with
        | sem t =>
            by_cases e : t = s
            · subst e
              simp [KState.inuse, K₂, K₁, KState.setCount, KState.setHeap]
            · simp [KState.inuse, K₂, K₁, KState.setCount, KState.setHeap, e]
        | _ => rfl
      have hc := h.created hs (X := K₂) rfl rfl hinuse rfl rfl
      refine ⟨s.val, K₂, ?_, .inr ⟨s, rfl, hs, hc, ?_, rfl, rfl⟩⟩
      · rw [semCreate, run_bind_ok disableIntrs_run, get_bind_run]
        have hfind : ((List.finRange maxSems).find? fun s => !((K.setIntrs 15).sems s).inuse) =
            some s := hf
        simp only [hfind]
        rfl
      · have hcount : (fun t => (K₂.sems t).count) =
            Function.update (fun t => (K.sems t).count) s n := by
          funext t
          by_cases e : t = s <;> simp [K₂, K₁, KState.setCount, KState.setHeap, e]
        simp only [KState.monitor, hc.list, hcount, Monitor.setCount]
        rfl

theorem lockCreate_spec (h : Table K) : ∃ r K', lockCreate.run K = .ok (r, K') ∧
    ((r = syncFail ∧ K' = K ∧ ∀ k, K.inuse (.lock k) = true) ∨
      ∃ k : LockPtr, r = k.val ∧ K.inuse (.lock k) = false ∧
      Created K (.lock k) K' ∧ K'.monitor = K.monitor.setOwner k none ∧
      (∀ j, j ≠ k → K'.locks j = K.locks j) ∧ (K'.locks k).pid = -1 ∧ K'.conds = K.conds) := by
  cases hf : (List.finRange maxLocks).find? fun k => !(K.locks k).inuse with
  | none =>
      refine ⟨syncFail, K, ?_, .inl ⟨rfl, rfl, find_full hf⟩⟩
      rw [lockCreate, run_bind_ok disableIntrs_run, get_bind_run]
      have hfind : ((List.finRange maxLocks).find? fun k => !((K.setIntrs 15).locks k).inuse) =
          none := hf
      simp only [hfind]
      rfl
  | some k =>
      have hk : K.inuse (.lock k) = false := find_unused hf
      have hk' : (K.locks k).inuse = false := hk
      let K₁ : KState :=
        { K with locks := Function.update K.locks k { K.locks k with inuse := true } }
      let K₂ := (K₁.setHeap (aQueueInit K.heap (some (.named (.waiting (.lock k))))).2).setPid k (-1)
      have hother : ∀ j, j ≠ k → K₂.locks j = K.locks j := fun j e => by
        simp [K₂, K₁, KState.setPid, KState.setHeap, e]
      have hself : K₂.locks k = { pid := -1, inuse := true } := by
        simp [K₂, K₁, KState.setPid, KState.setHeap]
      have hinuse : K₂.inuse = Function.update K.inuse (.lock k) true := by
        funext w
        cases w with
        | lock j =>
            by_cases e : j = k
            · subst e
              simp [KState.inuse, hself]
            · simp [KState.inuse, hother j e, e]
        | _ => rfl
      have hc := h.created hk (X := K₂) rfl rfl hinuse rfl rfl
      refine ⟨k.val, K₂, ?_, .inr ⟨k, rfl, hk, hc, ?_, hother, by rw [hself], rfl⟩⟩
      · rw [lockCreate, run_bind_ok disableIntrs_run, get_bind_run]
        have hfind : ((List.finRange maxLocks).find? fun k => !((K.setIntrs 15).locks k).inuse) =
            some k := hf
        simp only [hfind]
        rfl
      · have howner : (fun j => if (K₂.locks j).inuse then
              index processMaxProcs (K₂.locks j).pid else none) =
            Function.update (fun j => if (K.locks j).inuse then
              index processMaxProcs (K.locks j).pid else none) k none := by
          funext j
          by_cases e : j = k
          · subst e
            simp [hself]
          · simp [hother j e, e]
        simp only [KState.monitor, hc.list, howner, Monitor.setOwner]
        rfl

/-- A lock handle within its table is followed, another one is a wild access. -/
theorem condCreate_spec (h : Table K) (lock : Int) :
    (index maxLocks lock = none ∧ (condCreate lock).run K = .error .wildAccess) ∨
    ∃ r K', (condCreate lock).run K = .ok (r, K') ∧
      ((r = invalidCond ∧ K' = K ∧ ∀ k : LockPtr, lock = k.val → K.inuse (.lock k) = true →
        ∀ c, K.inuse (.cond c) = true) ∨ ∃ (c : CondPtr) (k : LockPtr), r = c.val ∧ lock = k.val ∧
        K.inuse (.cond c) = false ∧ K.inuse (.lock k) = true ∧ Created K (.cond c) K' ∧
        K'.monitor = { K.monitor with bound := Function.update K.monitor.bound c k } ∧
        K'.locks = K.locks ∧ K'.conds = Function.update K.conds c ⟨lock, true⟩) := by
  cases hl : index maxLocks lock with
  | none =>
      refine .inl ⟨rfl, ?_⟩
      rw [condCreate, lockAt, hl]
      rfl
  | some k =>
      have ek : lock = k.val := index_eq_some.mp hl
      have elock : (lockAt lock).run K = .ok (k, K) := by
        rw [lockAt, hl]
        rfl
      refine .inr ?_
      by_cases hk : (K.locks k).inuse = true
      · have hk' : (!(K.locks k).inuse) = false := by simp [hk]
        cases hf : (List.finRange maxConds).find? fun c => !(K.conds c).inuse with
        | none =>
            refine ⟨invalidCond, K, ?_, .inl ⟨rfl, rfl, fun _ _ _ => find_full hf⟩⟩
            rw [condCreate, run_bind_ok elock, get_bind_run, condCreateFor, hk']
            change StateT.run (disableIntrs >>= _) _ = _
            rw [run_bind_ok disableIntrs_run, get_bind_run]
            have hfind : ((List.finRange maxConds).find? fun c => !((K.setIntrs 15).conds c).inuse) =
                none := hf
            simp only [hfind]
            rfl
        | some c =>
            have hc : K.inuse (.cond c) = false := find_unused hf
            let K₁ : KState := { K with conds := Function.update K.conds c ⟨lock, true⟩ }
            let K₂ := K₁.setHeap (aQueueInit K.heap (some (.named (.waiting (.cond c))))).2
            have hinuse : K₂.inuse = Function.update K.inuse (.cond c) true := by
              funext w
              cases w with
              | cond b =>
                  by_cases e : b = c
                  · subst e
                    simp [KState.inuse, K₂, K₁, KState.setHeap]
                  · simp [KState.inuse, K₂, K₁, KState.setHeap, e]
              | _ => rfl
            have hcr := h.created hc (X := K₂) rfl rfl hinuse rfl rfl
            refine ⟨c.val, K₂, ?_, .inr ⟨c, k, rfl, ek, hc, hk, hcr, ?_, rfl, rfl⟩⟩
            · rw [condCreate, run_bind_ok elock, get_bind_run, condCreateFor, hk']
              change StateT.run (disableIntrs >>= _) _ = _
              rw [run_bind_ok disableIntrs_run, get_bind_run]
              have hfind : ((List.finRange maxConds).find? fun c => !((K.setIntrs 15).conds c).inuse) =
                  some c := hf
              simp only [hfind]
              rfl
            · have hbound : (fun b => (index maxLocks (K₂.conds b).lock).getD ⟨0, by decide⟩) =
                  Function.update
                    (fun b => (index maxLocks (K.conds b).lock).getD ⟨0, by decide⟩) c k := by
                funext b
                by_cases e : b = c
                · subst e
                  simp [K₂, K₁, KState.setHeap, ek]
                · simp [K₂, K₁, KState.setHeap, e]
              simp only [KState.monitor, hcr.list, hbound]
              rfl
      · refine ⟨invalidCond, K, ?_, .inl ⟨rfl, rfl, fun j ej hj => ?_⟩⟩
        swap
        · obtain rfl : j = k := Fin.ext (by omega)
          exact absurd hj hk
        have hk' : (!(K.locks k).inuse) = true := by simpa using hk
        rw [condCreate, run_bind_ok elock, get_bind_run, condCreateFor, hk']
        rfl

end DlxOs.Kernel
