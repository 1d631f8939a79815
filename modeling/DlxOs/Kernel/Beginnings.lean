import DlxOs.Kernel.Realization
import DlxOs.Library.Execution
import DlxOs.Kernel.Sleepers
import Mathlib.Data.Fintype.Card

/-!
# Programs can be started

Before a program starts, its objects are created. The kernel creates them one
after the other, as long as there are not more of them than entries in its
tables.

## Main results

* `exists_begins`: every program with few objects can be started.
-/

namespace DlxOs.Kernel

open Queue Monitors Monitor Transition

variable {m m' : Machine} {p q : PcbPtr}

/-- Object `w` has been created, and the others are as before. -/
structure Machine.Adds (m : Machine) (w : WaitObject) (m' : Machine) : Prop where
  unused : m.kernel.inuse w = false
  inuse : m'.kernel.inuse = Function.update m.kernel.inuse w true
  count : ∀ s, .sem s ≠ w → m'.kernel.monitor.count s = m.kernel.monitor.count s
  owner : ∀ k, .lock k ≠ w → m'.kernel.monitor.owner k = m.kernel.monitor.owner k
  bound : ∀ c, .cond c ≠ w → m'.kernel.monitor.bound c = m.kernel.monitor.bound c

namespace Machine.Adds

variable {w v : WaitObject}

theorem used (h : m.Adds w m') : m'.kernel.inuse w = true := by
  rw [h.inuse, Function.update_self]

theorem still (h : m.Adds w m') (hv : m.kernel.inuse v = true) : m'.kernel.inuse v = true := by
  rw [h.inuse]
  by_cases e : v = w
  · rw [e, Function.update_self]
  · rwa [Function.update_of_ne e]

/-- Whatever is in use is the new object or was in use before. -/
theorem cases (h : m.Adds w m') (hv : m'.kernel.inuse v = true) :
    v = w ∨ m.kernel.inuse v = true := by
  by_cases e : v = w
  · exact .inl e
  · rw [h.inuse, Function.update_of_ne e] at hv
    exact .inr hv

theorem ne (h : m.Adds w m') (hv : m.kernel.inuse v = true) : v ≠ w := by
  rintro rfl
  rw [h.unused] at hv
  cases hv

end Machine.Adds

namespace Scene

theorem addSem (h : Scene m p q) (n : Int) (hs : ∃ s, m.kernel.inuse (.sem s) = false) :
    ∃ s m', Scene m' p q ∧ m.Adds (.sem s) m' ∧ m'.kernel.monitor.count s = n := by
  obtain ⟨s₀, hs₀⟩ := hs
  obtain ⟨v, K, e, ⟨-, -, hfull⟩ | ⟨s, rfl, hs, hc, hm, -⟩⟩ := semCreate_spec h.inv.table n
  · rw [hfull s₀] at hs₀
    cases hs₀
  · have run : (Syscall.semCreate n).run.run m.kernel = .ok (.returned s.val, K) := by
      rw [Syscall.run, run_bind_ok e]
      rfl
    have hstep := Machine.Inv.call_steps (c := .semCreate n) h.active trivial run
    refine ⟨s, _, h.setKernel hstep trivial
      (congrArg Sched.run (KState.sched_congr hc.list)), ⟨hs, hc.inuse, fun t ht => ?_,
      fun k _ => ?_, fun c _ => ?_⟩, ?_⟩
    all_goals simp only [Machine.setKernel, hm]
    · exact setCount_of_ne _ _ _ fun e => ht (congrArg _ e)
    · rfl
    · rfl
    · exact setCount_self ..

theorem addLock (h : Scene m p q) (hk : ∃ k, m.kernel.inuse (.lock k) = false) :
    ∃ k m', Scene m' p q ∧ m.Adds (.lock k) m' ∧ m'.kernel.monitor.owner k = none := by
  obtain ⟨k₀, hk₀⟩ := hk
  obtain ⟨v, K, e, ⟨-, -, hfull⟩ | ⟨k, rfl, hk, hc, hm, -⟩⟩ := lockCreate_spec h.inv.table
  · rw [hfull k₀] at hk₀
    cases hk₀
  · have run : Syscall.lockCreate.run.run m.kernel = .ok (.returned k.val, K) := by
      rw [Syscall.run, run_bind_ok e]
      rfl
    have hs := Machine.Inv.call_steps (c := .lockCreate) h.active trivial run
    refine ⟨k, _, h.setKernel hs trivial
      (congrArg Sched.run (KState.sched_congr hc.list)), ⟨hk, hc.inuse, fun t _ => ?_,
      fun j hj => ?_, fun c _ => ?_⟩, ?_⟩
    all_goals simp only [Machine.setKernel, hm]
    · rfl
    · exact setOwner_of_ne _ _ _ _ fun e => hj (congrArg _ e)
    · rfl
    · exact setOwner_self ..

theorem addCond (h : Scene m p q) {k : LockPtr} (hk : m.kernel.inuse (.lock k) = true)
    (hc : ∃ c, m.kernel.inuse (.cond c) = false) :
    ∃ c m', Scene m' p q ∧ m.Adds (.cond c) m' ∧ m'.kernel.monitor.bound c = k := by
  obtain ⟨c₀, hc₀⟩ := hc
  obtain ⟨hn, -⟩ | ⟨v, K, e, ⟨-, -, hfull⟩ | ⟨c, j, rfl, hj, hu, -, hc, hm, -⟩⟩ :=
    condCreate_spec h.inv.table k.val
  · rw [index_val] at hn
    cases hn
  · rw [hfull k rfl hk c₀] at hc₀
    cases hc₀
  · obtain rfl : k = j := Fin.ext (by omega)
    have run : (Syscall.condCreate k.val).run.run m.kernel = .ok (.returned c.val, K) := by
      rw [Syscall.run, run_bind_ok e]
      rfl
    have hs := Machine.Inv.call_steps (c := .condCreate k.val) h.active trivial run
    refine ⟨c, _, h.setKernel hs trivial
      (congrArg Sched.run (KState.sched_congr hc.list)), ⟨hu, hc.inuse, fun t _ => ?_,
      fun j _ => ?_, fun d hd => ?_⟩, ?_⟩
    all_goals simp only [Machine.setKernel, hm]
    · exact Function.update_of_ne (fun e => hd (congrArg _ e)) ..
    · exact Function.update_self ..

/-- Nobody sleeps, and all other processes are free. -/
theorem length_free (h : Scene m p q) : processMaxProcs ≤ m.kernel.sched.free.length + 2 := by
  have wait : m.kernel.sched.wait = [] := by
    refine List.eq_nil_iff_forall_not_mem.mpr fun x hx => ?_
    obtain ⟨w, hw⟩ := reachable_queued (h.reach.weaken fun _ _ => KEvent.Plain.not_raw) x hx
    rw [h.waiting w] at hw
    cases hw
  have cover : (Finset.univ : Finset PcbPtr) ⊆ (m.kernel.sched.free ++ [p, q]).toFinset := by
    intro x _
    have hx := h.inv.placed x
    rw [wait, h.run] at hx
    simpa [or_comm, or_assoc] using hx
  have hcard := (Finset.card_le_card cover).trans (List.toFinset_card_le _)
  simpa using hcard

end Scene

/-- Not all entries of a table are used by objects of which one is missing. -/
theorem exists_unused {α : Type*} [Fintype α] {n : ℕ} (hc : Fintype.card α ≤ n)
    {used : Fin n → Bool} {A : Finset α} {f : α → Fin n}
    (only : ∀ t, used t = true → ∃ a ∈ A, f a = t) {a : α} (ha : a ∉ A) :
    ∃ t, used t = false := by
  by_contra hne
  push Not at hne
  have all : ∀ t, ∃ a ∈ A, f a = t := fun t => only t (by simpa using hne t)
  choose g hg hfg using all
  have inj : Function.Injective g := fun t u e => by rw [← hfg t, e, hfg u]
  have hlt := Fintype.card_lt_of_injective_of_notMem g inj (b := a) fun ⟨t, e⟩ => ha (e ▸ hg t)
  rw [Fintype.card_fin] at hlt
  omega

variable {S L C : Type*} {n : S → Int} {b : C → L} {sem : S → SemPtr} {lock : L → LockPtr}
  {cond : C → CondPtr} {A : Finset S} {B : Finset L} {D : Finset C}

/-- Semaphores, locks and condition variables have been created, and nothing else. -/
structure Equipped (n : S → Int) (b : C → L) (sem : S → SemPtr) (lock : L → LockPtr)
    (cond : C → CondPtr) (A : Finset S) (B : Finset L) (D : Finset C) (m : Machine) : Prop where
  sems : ∀ s ∈ A, m.kernel.inuse (.sem (sem s)) = true ∧ m.kernel.monitor.count (sem s) = n s
  locks : ∀ k ∈ B, m.kernel.inuse (.lock (lock k)) = true ∧ m.kernel.monitor.owner (lock k) = none
  conds : ∀ c ∈ D, m.kernel.inuse (.cond (cond c)) = true ∧
    m.kernel.monitor.bound (cond c) = lock (b c)
  only_sems : ∀ t, m.kernel.inuse (.sem t) = true → ∃ s ∈ A, sem s = t
  only_locks : ∀ t, m.kernel.inuse (.lock t) = true → ∃ k ∈ B, lock k = t
  only_conds : ∀ t, m.kernel.inuse (.cond t) = true → ∃ c ∈ D, cond c = t
  sem_inj : Set.InjOn sem A
  lock_inj : Set.InjOn lock B
  cond_inj : Set.InjOn cond D

/-- A name for one more object. -/
theorem injOn_insert {α : Type*} {k : ℕ} [DecidableEq α] {f : α → Fin k} {A : Finset α} {a : α}
    {t : Fin k} (h : Set.InjOn f A) (ha : a ∉ A) (ht : ∀ x ∈ A, f x ≠ t) :
    Set.InjOn (Function.update f a t) (insert a A : Finset α) := by
  have old : ∀ x ∈ A, Function.update f a t x = f x := fun x hx =>
    Function.update_of_ne (ne_of_mem_of_not_mem hx ha) ..
  intro x hx y hy e
  rw [Finset.coe_insert, Set.mem_insert_iff, Finset.mem_coe] at hx hy
  rcases hx with rfl | hx <;> rcases hy with rfl | hy
  · rfl
  · rw [Function.update_self, old y hy] at e
    exact absurd e.symm (ht y hy)
  · rw [Function.update_self, old x hx] at e
    exact absurd e (ht x hx)
  · rw [old x hx, old y hy] at e
    exact h hx hy e

namespace Equipped

theorem newSem [DecidableEq S] (h : Equipped n b sem lock cond A B D m) {s : S} (hs : s ∉ A)
    {t : SemPtr} (ha : m.Adds (.sem t) m') (hn : m'.kernel.monitor.count t = n s) :
    Equipped n b (Function.update sem s t) lock cond (insert s A) B D m' := by
  have ne : ∀ x ∈ A, sem x ≠ t := fun x hx e => ha.ne (h.sems x hx).1 (congrArg _ e)
  refine ⟨fun x hx => ?_, fun k hk => ⟨ha.still (h.locks k hk).1, ?_⟩,
    fun c hc => ⟨ha.still (h.conds c hc).1, ?_⟩, fun u hu => ?_, fun u hu => ?_, fun u hu => ?_,
    injOn_insert h.sem_inj hs ne, h.lock_inj, h.cond_inj⟩
  · rcases Finset.mem_insert.mp hx with rfl | hx
    · rw [Function.update_self]
      exact ⟨ha.used, hn⟩
    · rw [Function.update_of_ne (ne_of_mem_of_not_mem hx hs)]
      refine ⟨ha.still (h.sems x hx).1, (ha.count _ fun e => ne x hx ?_).trans (h.sems x hx).2⟩
      exact WaitPoint.sem.inj e
  · exact (ha.owner _ (by simp)).trans (h.locks k hk).2
  · exact (ha.bound _ (by simp)).trans (h.conds c hc).2
  · rcases ha.cases hu with e | hu
    · exact ⟨s, Finset.mem_insert_self .., by rw [Function.update_self, WaitPoint.sem.inj e]⟩
    · obtain ⟨x, hx, e⟩ := h.only_sems u hu
      refine ⟨x, Finset.mem_insert_of_mem hx, ?_⟩
      rwa [Function.update_of_ne (ne_of_mem_of_not_mem hx hs)]
  · exact h.only_locks u ((ha.cases hu).resolve_left (by simp))
  · exact h.only_conds u ((ha.cases hu).resolve_left (by simp))

theorem newLock [DecidableEq L] (h : Equipped n b sem lock cond A B ∅ m) {k : L} (hk : k ∉ B)
    {t : LockPtr} (ha : m.Adds (.lock t) m') (ho : m'.kernel.monitor.owner t = none) :
    Equipped n b sem (Function.update lock k t) cond A (insert k B) ∅ m' := by
  have ne : ∀ x ∈ B, lock x ≠ t := fun x hx e => ha.ne (h.locks x hx).1 (congrArg _ e)
  refine ⟨fun s hs => ⟨ha.still (h.sems s hs).1, ?_⟩, fun x hx => ?_, by simp,
    fun u hu => ?_, fun u hu => ?_, fun u hu => ?_, h.sem_inj, injOn_insert h.lock_inj hk ne,
    h.cond_inj⟩
  · exact (ha.count _ (by simp)).trans (h.sems s hs).2
  · rcases Finset.mem_insert.mp hx with rfl | hx
    · rw [Function.update_self]
      exact ⟨ha.used, ho⟩
    · rw [Function.update_of_ne (ne_of_mem_of_not_mem hx hk)]
      refine ⟨ha.still (h.locks x hx).1, (ha.owner _ fun e => ne x hx ?_).trans (h.locks x hx).2⟩
      exact WaitPoint.lock.inj e
  · exact h.only_sems u ((ha.cases hu).resolve_left (by simp))
  · rcases ha.cases hu with e | hu
    · exact ⟨k, Finset.mem_insert_self .., by rw [Function.update_self, WaitPoint.lock.inj e]⟩
    · obtain ⟨x, hx, e⟩ := h.only_locks u hu
      refine ⟨x, Finset.mem_insert_of_mem hx, ?_⟩
      rwa [Function.update_of_ne (ne_of_mem_of_not_mem hx hk)]
  · exact h.only_conds u ((ha.cases hu).resolve_left (by simp))

theorem newCond [DecidableEq C] (h : Equipped n b sem lock cond A B D m) {c : C} (hc : c ∉ D)
    {t : CondPtr} (ha : m.Adds (.cond t) m') (hb : m'.kernel.monitor.bound t = lock (b c)) :
    Equipped n b sem lock (Function.update cond c t) A B (insert c D) m' := by
  have ne : ∀ x ∈ D, cond x ≠ t := fun x hx e => ha.ne (h.conds x hx).1 (congrArg _ e)
  refine ⟨fun s hs => ⟨ha.still (h.sems s hs).1, ?_⟩,
    fun k hk => ⟨ha.still (h.locks k hk).1, ?_⟩, fun x hx => ?_, fun u hu => ?_, fun u hu => ?_,
    fun u hu => ?_, h.sem_inj, h.lock_inj, injOn_insert h.cond_inj hc ne⟩
  · exact (ha.count _ (by simp)).trans (h.sems s hs).2
  · exact (ha.owner _ (by simp)).trans (h.locks k hk).2
  · rcases Finset.mem_insert.mp hx with rfl | hx
    · rw [Function.update_self]
      exact ⟨ha.used, hb⟩
    · rw [Function.update_of_ne (ne_of_mem_of_not_mem hx hc)]
      refine ⟨ha.still (h.conds x hx).1, (ha.bound _ fun e => ne x hx ?_).trans (h.conds x hx).2⟩
      exact WaitPoint.cond.inj e
  · exact h.only_sems u ((ha.cases hu).resolve_left (by simp))
  · exact h.only_locks u ((ha.cases hu).resolve_left (by simp))
  · rcases ha.cases hu with e | hu
    · exact ⟨c, Finset.mem_insert_self .., by rw [Function.update_self, WaitPoint.cond.inj e]⟩
    · obtain ⟨x, hx, e⟩ := h.only_conds u hu
      refine ⟨x, Finset.mem_insert_of_mem hx, ?_⟩
      rwa [Function.update_of_ne (ne_of_mem_of_not_mem hx hc)]

end Equipped

section Start

variable [Fintype S] [Fintype L] [Fintype C]

/-- All objects of a program are created, if there are entries for them. -/
theorem exists_equipped (n : S → Int) (b : C → L) (hS : Fintype.card S ≤ maxSems)
    (hL : Fintype.card L ≤ maxLocks) (hC : Fintype.card C ≤ maxConds) :
    ∃ m p q sem lock cond, Scene m p q ∧
      Equipped n b sem lock cond Finset.univ Finset.univ Finset.univ m := by
  classical
  obtain ⟨m, p, q, scene, unused⟩ := exists_scene
  have sems : ∀ A : Finset S, ∃ m sem, Scene m p q ∧ Equipped n b sem (fun _ => ⟨0, by decide⟩)
      (fun _ => ⟨0, by decide⟩) A ∅ ∅ m := by
    intro A
    induction A using Finset.induction_on with
    | empty =>
        exact ⟨m, fun _ => ⟨0, by decide⟩, scene, by simp, by simp, by simp, by simp [unused],
          by simp [unused], by simp [unused], by simp, by simp, by simp⟩
    | @insert s A hs ih =>
        obtain ⟨m, sem, scene, he⟩ := ih
        obtain ⟨t, m', scene', ha, hn⟩ := scene.addSem (n s) (exists_unused hS he.only_sems hs)
        exact ⟨m', _, scene', he.newSem hs ha hn⟩
  have locks : ∀ B : Finset L, ∃ m sem lock, Scene m p q ∧
      Equipped n b sem lock (fun _ => ⟨0, by decide⟩) Finset.univ B ∅ m := by
    intro B
    induction B using Finset.induction_on with
    | empty =>
        obtain ⟨m, sem, scene, he⟩ := sems Finset.univ
        exact ⟨m, sem, _, scene, he⟩
    | @insert k B hk ih =>
        obtain ⟨m, sem, lock, scene, he⟩ := ih
        obtain ⟨t, m', scene', ha, ho⟩ := scene.addLock (exists_unused hL he.only_locks hk)
        exact ⟨m', sem, _, scene', he.newLock hk ha ho⟩
  have conds : ∀ D : Finset C, ∃ m sem lock cond, Scene m p q ∧
      Equipped n b sem lock cond Finset.univ Finset.univ D m := by
    intro D
    induction D using Finset.induction_on with
    | empty =>
        obtain ⟨m, sem, lock, scene, he⟩ := locks Finset.univ
        exact ⟨m, sem, lock, _, scene, he⟩
    | @insert c D hc ih =>
        obtain ⟨m, sem, lock, cond, scene, he⟩ := ih
        obtain ⟨t, m', scene', ha, hb⟩ := scene.addCond
          (he.locks (b c) (Finset.mem_univ _)).1 (exists_unused hC he.only_conds hc)
        exact ⟨m', sem, lock, _, scene', he.newCond hc ha hb⟩
  obtain ⟨m, sem, lock, cond, scene, he⟩ := conds Finset.univ
  exact ⟨m, p, q, sem, lock, cond, scene, he⟩

variable {P : Type*} {Loc : P → Type*} {Mem : Type*} [DecidableEq S] [DecidableEq L] [DecidableEq C]

/-- Every program with few objects can be started, with the rest of the process table free. -/
theorem exists_begins (start : Threads P S L C Loc Mem) (common : S → Prop)
    (hS : Fintype.card S ≤ maxSems) (hL : Fintype.card L ≤ maxLocks)
    (hC : Fintype.card C ≤ maxConds) : ∃ (ν : Handles S L C) (h : Hosted P Loc Mem) (p q : PcbPtr),
      ν.common = common ∧ h.Begins ν start ∧ Scene h.machine p q := by
  obtain ⟨m, p, q, sem, lock, cond, scene, he⟩ :=
    exists_equipped start.session.mon.count start.session.mon.bound hS hL hC
  refine ⟨⟨sem, lock, cond, Set.injOn_univ.mp (by simpa using he.sem_inj),
    Set.injOn_univ.mp (by simpa using he.lock_inj), Set.injOn_univ.mp (by simpa using he.cond_inj),
    common⟩, ⟨m, fun _ => .unborn, start.loc, start.mem⟩, p, q, rfl,
    ⟨scene.reach.unrestricted, fun _ => rfl, rfl, rfl, fun w => ?_, fun r d w hd => ?_,
    fun w => scene.waiting _, fun s => (he.sems s (Finset.mem_univ _)).2,
    fun k => (he.locks k (Finset.mem_univ _)).2, fun c => (he.conds c (Finset.mem_univ _)).2⟩,
    scene⟩
  · cases w with
    | sem s => exact (he.sems s (Finset.mem_univ _)).1
    | lock k => exact (he.locks k (Finset.mem_univ _)).1
    | cond c => exact (he.conds c (Finset.mem_univ _)).1
  · simp [Machine.view, scene.outside r] at hd

/-- All processes of a program have been forked and have come to the end of a schedule. -/
theorem exists_hosted [DecidableEq P] [Fintype P] {π : Program P S L C Loc Mem}
    {start : Threads P S L C Loc Mem} (fresh : start.Fresh)
    (asks : ∀ (ν : Handles S L C) p l c next, π p l = .call c next → ∃ sys, ν.request c = some sys)
    (common : S → Prop) (hS : Fintype.card S ≤ maxSems) (hL : Fintype.card L ≤ maxLocks)
    (hC : Fintype.card C ≤ maxConds) (hP : Fintype.card P + 2 ≤ processMaxProcs) (ps : List P)
    (runs : (Threads.exec π start ps).isSome) :
    ∃ (ν : Handles S L C) (h : Hosted P Loc Mem) (s : Threads P S L C Loc Mem), ν.common = common ∧
      (aloneSystem π ν start).Reachable h ∧ Threads.exec π start ps = some s ∧ h.loc = s.loc ∧
      h.mem = s.mem ∧ (∀ p, h.place p ≠ .unborn) ∧ ∀ p, ¬ s.session.Awake p →
        ∃ r, h.place p = .runs r ∧ r ∈ h.machine.kernel.sched.wait := by
  obtain ⟨s, hs⟩ := Option.isSome_iff_exists.mp runs
  obtain ⟨ν, h, p, q, hν, hb, scene⟩ := exists_begins start common hS hL hC
  have room : Fintype.card P ≤ h.machine.kernel.sched.free.length := by
    have := scene.length_free
    omega
  obtain ⟨es, h', run, e, hσ, ha⟩ := hosted_realizes (ν := ν.unshared) fresh (fun _ _ _ _ => nofun)
    (asks ν.unshared) hb.unshared (z := p) (by simp [scene.run]) (scene.outside p) room
    (Threads.exec_reachable ps (.init rfl) hs)
  refine ⟨ν, h', s, hν, (System.Reachable.init hb).run (Hosted.shared_run run), hs,
    congrArg Threads.loc e, congrArg Threads.mem e, fun q unborn => ?_, fun q asleep => ?_⟩
  · obtain ⟨r, hr⟩ := ha.forked q
    rw [hr] at unborn
    cases unborn
  · obtain ⟨r, w, hr, hw⟩ := hσ.asleep asleep
    exact ⟨r, hr, hσ.inv.queued _ r hw⟩

/-- If a schedule of a program leads to a positive semaphore, a process beside the program gets
through a wait on it. -/
theorem exists_returns [DecidableEq P] [Fintype P] {π : Program P S L C Loc Mem}
    {start : Threads P S L C Loc Mem} (fresh : start.Fresh)
    (asks : ∀ (ν : Handles S L C) p l c next, π p l = .call c next → ∃ sys, ν.request c = some sys)
    (common : S → Prop) (hS : Fintype.card S ≤ maxSems) (hL : Fintype.card L ≤ maxLocks)
    (hC : Fintype.card C ≤ maxConds) (hP : Fintype.card P + 2 ≤ processMaxProcs) (ps : List P)
    (t : S)
    (positive : (Threads.exec π start ps).any fun s => decide (0 < s.session.mon.count t)) :
    ∃ (ν : Handles S L C) (h : Hosted P Loc Mem) (e : KEvent) (m : Machine), ν.common = common ∧
      (aloneSystem π ν start).Reachable h ∧ h.machine.Step e m ∧ e.GetsThrough (ν.sem t) := by
  obtain ⟨s, hs, hcount⟩ := Threads.exists_of_exec _ _ ps positive
  obtain ⟨ν, h, p, q, hν, hb, scene⟩ := exists_begins start common hS hL hC
  have room : Fintype.card P ≤ h.machine.kernel.sched.free.length := by
    have := scene.length_free
    omega
  obtain ⟨es, h', e, m, run, -, -, hstep, through⟩ := hosted_returns fresh (asks ν) hb
    (z := p) (by simp [scene.run]) (scene.outside p) room hs (of_decide_eq_true hcount)
  exact ⟨ν, h', e, m, hν, (System.Reachable.init hb).run run, hstep, through⟩

end Start

end DlxOs.Kernel
