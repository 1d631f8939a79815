import DlxOs.Kernel.Sleepers
import Mathlib.Data.Finset.Card

/-!
# The supply of queue links

Every PCB holds one link on a queue of the process table, and every waiting
process one more on a waiting queue. The pool has more links than that, and the
link of a PCB is always on the queue that it is taken off, so that no check of a
queue operation fails.
-/

namespace DlxOs.Kernel

open Queue Monitors Transition

/-- The texts of the checks of queue operations in `process.c` and `synch.c`. -/
def queueFailures : List String :=
  [
    "FATAL ERROR: could not remove process from run Queue in ProcessSuspend!\n",
    "FATAL ERROR: could not get Queue Link in ProcessSuspend!\n",
    "FATAL ERROR: could not insert suspend PCB into waitQueue!\n",
    "FATAL ERROR: could not remove wakeup PCB from waitQueue in ProcessWakeup!\n",
    "FATAL ERROR: could not get link for wakeup PCB in ProcessWakeup!\n",
    "FATAL ERROR: could not insert link into runQueue in ProcessWakeup!\n",
    "FATAL ERROR: could not remove link from queue in ProcessDestroy!\n",
    "FATAL ERROR: could not get link for zombie PCB in ProcessDestroy!\n",
    "FATAL ERROR: could not get Queue Link in ProcessFreeResources!\n",
    "FATAL ERROR: could not insert PCB link into freepcbs queue in ProcessFreeResources!\n",
    "FATAL ERROR: could not remove zombie process from zombieQueue in ProcessSchedule!\n",
    "FATAL ERROR: could not get link for forked PCB in ProcessFork!\n",
    "FATAL ERROR: could not insert link into runQueue in ProcessFork!\n",
    "FATAL ERROR: could not remove link from freepcbsQueue in ProcessFork!\n",
    "FATAL ERROR: could not allocate link in ProcessModuleInit!\n",
    "FATAL ERROR: could not insert PCB link into queue in ProcessModuleInit!\n",
    "FATAL ERROR: could not initialize semaphore waiting queue in SemInit!\n",
    "FATAL ERROR: could not allocate link for semaphore queue in SemWait!\n",
    "FATAL ERROR: could not insert new link into semaphore waiting queue in SemWait!\n",
    "FATAL ERROR: could not remove link from semaphore queue in SemSignal!\n",
    "FATAL ERROR: could not initialize lock waiting queue in LockInit!\n",
    "FATAL ERROR: could not allocate link for lock queue in LockAcquire!\n",
    "FATAL ERROR: could not insert new link into lock waiting queue in LockAcquire!\n",
    "FATAL ERROR: could not remove link from lock queue in LockRelease!\n",
    "FATAL ERROR: could not remove link from lock queue in LockTransfer!\n",
    "FATAL ERROR: Could not initialize conditional variable waiting queue in CondCreate!\n",
    "FATAL ERROR: Could not allocate link for wait queue in CondWait!\n",
    "FATAL ERROR: Could not insert link for wait queue in CondWait!\n",
    "FATAL ERROR: Could not remove link from conditional queue in CondSignal!\n",
    "FATAL ERROR: Could not allocate link for conditional lock queue in CondSignal!\n",
    "FATAL ERROR: Could not insert link for conditional lock wait queue in CondSignal!\n"  ]

/-- The code comes to an end, and no queue operation of it fails. -/
def QueuesHold {α : Type} (f : KernelM α) (K : KState) : Prop :=
  ∃ texts, consoleAfter (f.run K) = some texts ∧ ∀ t ∈ texts, t ∉ queueFailures

/-- The free links are those which no process holds, and no queue operation fails. -/
structure Machine.LinksSuffice (m : Machine) : Prop where
  free : (m.kernel.heap.items .freeLinks).length =
    queueMaxLinks - processMaxProcs - (m.kernel.list .waitQueue).length
  schedules : QueuesHold (processSchedule false) m.kernel
  forks : ∀ answers, QueuesHold (processFork answers) m.kernel
  exits : ∀ p, m.Active p → QueuesHold trapExit m.kernel
  serves : ∀ (p : PcbPtr) (c : Syscall) (level : BitVec 4), m.Active p → c.Legal m.kernel →
    c.run.run (m.kernel.setIntrs level) = .error .wildAccess ∨
      QueuesHold c.run (m.kernel.setIntrs level)
  returns : ∀ level, QueuesHold (wakeReturn level) m.kernel

variable {m : Machine} {K : KState} {S : Pool KQueue PcbPtr} {p : PcbPtr}

/-! ### The number of free links -/

/-- As many links are on the queues of one kind as there are processes. -/
theorem LinkedBy.card_kind (h : LinkedBy K S) (hs : Sparse K.list) (b : Bool) {P : Finset PcbPtr}
    (hP : ∀ p, p ∈ P ↔ ∃ q : KQueue, q.isTable = b ∧ p ∈ K.list q) {T : Finset LinkPtr}
    (hT : ∀ l, l ∈ T ↔ ∃ q : KQueue, q.isTable = b ∧ K.ready q = true ∧
      l ∈ S.items (.named q)) : T.card = P.card := by
  have himage : T.image S.object = P.image some := by
    ext o
    simp only [Finset.mem_image]
    constructor
    · rintro ⟨l, hl, rfl⟩
      obtain ⟨q, hb, hq, hm⟩ := (hT l).mp hl
      obtain ⟨p, hp⟩ := Option.ne_none_iff_exists'.mp (h.object q hq l hm)
      exact ⟨p, (hP p).mpr ⟨q, hb, (h.mem_list hq).mpr ⟨l, hm, hp⟩⟩, hp.symm⟩
    · rintro ⟨p, hp, rfl⟩
      obtain ⟨q, hb, hm⟩ := (hP p).mp hp
      have hq := ready_of_mem hm
      obtain ⟨l, hl, e⟩ := (h.mem_list hq).mp hm
      exact ⟨l, (hT l).mpr ⟨q, hb, hq, hl⟩, e⟩
  have hinj : Set.InjOn S.object T := by
    intro l hl k hk e
    obtain ⟨q, hb, hq, hm⟩ := (hT l).mp hl
    obtain ⟨r, hb', hr, hm'⟩ := (hT k).mp hk
    exact h.link_unique hs hq hr (hb.trans hb'.symm) hm hm' e
  rw [← Finset.card_image_of_injOn hinj, himage,
    Finset.card_image_of_injective _ (Option.some_injective _)]

/-- The free links are those that neither a PCB nor a waiting process takes up. -/
theorem LinkedBy.free_length (h : LinkedBy K S) (hs : Sparse K.list) {W : Finset PcbPtr}
    (placed : ∀ p, ∃ q : KQueue, q.isTable = true ∧ p ∈ K.list q)
    (hW : ∀ p, p ∈ W ↔ ∃ w, p ∈ K.list (.waiting w)) :
    (S.items .freeLinks).length + processMaxProcs + W.card = queueMaxLinks := by
  classical
  let kind (b : Bool) : Finset LinkPtr := Finset.univ.filter fun l =>
    ∃ q : KQueue, q.isTable = b ∧ K.ready q = true ∧ l ∈ S.items (.named q)
  let F : Finset LinkPtr := (S.items .freeLinks).toFinset
  have hF : F.card = (S.items .freeLinks).length :=
    List.toFinset_card_of_nodup (h.represents.shape _ h.free_known).nodup
  have htable : (kind true).card = processMaxProcs := by
    rw [h.card_kind hs true (P := Finset.univ) (fun p => by simpa using placed p)
      (fun l => by simp [kind])]
    exact Fintype.card_fin _
  have hwait : (kind false).card = W.card := by
    refine h.card_kind hs false (fun p => ?_) fun l => by simp [kind]
    rw [hW]
    constructor
    · rintro ⟨w, hw⟩
      exact ⟨.waiting w, rfl, hw⟩
    · rintro ⟨q, hq, hm⟩
      cases q with
      | waiting w => exact ⟨w, hm⟩
      | _ => cases hq
  have hkinds : Disjoint (kind true) (kind false) := by
    refine Finset.disjoint_left.mpr fun l hl hl' => ?_
    obtain ⟨q, hq, hr, hm⟩ := (Finset.mem_filter.mp hl).2
    obtain ⟨q', hq', hr', hm'⟩ := (Finset.mem_filter.mp hl').2
    have hne : q ≠ q' := fun e => by simp [e, hq'] at hq
    exact h.ne_of_mem ((h.known q).mpr hr) ((h.known q').mpr hr') (by simpa using hne) hm hm' rfl
  have hfree : Disjoint F (kind true ∪ kind false) := by
    refine Finset.disjoint_left.mpr fun l hl hl' => ?_
    obtain ⟨q, hr, hm⟩ : ∃ q, K.ready q = true ∧ l ∈ S.items (.named q) := by
      rcases Finset.mem_union.mp hl' with hl' | hl'
      · exact (Finset.mem_filter.mp hl').2.imp fun q hq => hq.2
      · exact (Finset.mem_filter.mp hl').2.imp fun q hq => hq.2
    exact h.ne_of_mem h.free_known ((h.known q).mpr hr) (by simp) (List.mem_toFinset.mp hl) hm rfl
  have hall : F ∪ (kind true ∪ kind false) = Finset.univ := by
    refine Finset.eq_univ_of_forall fun l => ?_
    obtain ⟨q, hk, hm⟩ := h.attached l
    cases q with
    | freeLinks => exact Finset.mem_union_left _ (List.mem_toFinset.mpr hm)
    | named q =>
        refine Finset.mem_union_right _ ?_
        cases hb : q.isTable with
        | true =>
            exact Finset.mem_union_left _ (Finset.mem_filter.mpr
              ⟨Finset.mem_univ l, q, hb, (h.known q).mp hk, hm⟩)
        | false =>
            exact Finset.mem_union_right _ (Finset.mem_filter.mpr
              ⟨Finset.mem_univ l, q, hb, (h.known q).mp hk, hm⟩)
  calc (S.items .freeLinks).length + processMaxProcs + W.card
      = F.card + ((kind true).card + (kind false).card) := by rw [hF, htable, hwait, add_assoc]
    _ = (F ∪ (kind true ∪ kind false)).card := by
        rw [Finset.card_union_of_disjoint hfree, Finset.card_union_of_disjoint hkinds]
    _ = queueMaxLinks := by rw [hall, Finset.card_univ, Fintype.card_fin]

/-! ### The checks of queue operations -/

/-- The first character of a literal, which reduces faster than the conversion of the text. -/
theorem first_char {l : List Char} {c : Char} (h : l[0]? = some c) :
    (String.ofList l).toList[0]? = some c := by
  rw [String.toList_ofList, h]

theorem queueFailures_first : ∀ t ∈ queueFailures, t.toList[0]? = some 'F' := by
  simp only [queueFailures, List.forall_mem_cons]
  and_intros
  all_goals first
    | exact first_char rfl
    | simp

/-- No notice is the text of a failed check. -/
theorem IsNotice.not_queueFailure {t : String} (h : IsNotice t) : t ∉ queueFailures := by
  cases h with
  | sleeper i =>
      change "Sleeping process " ++ toString i ++ ": " ∉ queueFailures
      exact fun hm => absurd (queueFailures_first _ hm) (by simp)
  | pid p =>
      change "PID = " ++ toString p.val ++ "\n" ∉ queueFailures
      exact fun hm => absurd (queueFailures_first _ hm) (by simp)
  | _ => simp [queueFailures]

/-- Code that leaves notices on the console has had no failed check. -/
theorem queuesHold_of_notices {α : Type} {f : KernelM α} (texts : List String)
    (e : consoleAfter (f.run K) = some (K.console ++ texts)) (hK : ∀ t ∈ K.console, IsNotice t)
    (ht : ∀ t ∈ texts, IsNotice t) : QueuesHold f K := by
  refine ⟨_, e, fun t hm => ?_⟩
  rcases List.mem_append.mp hm with hm | hm
  · exact (hK t hm).not_queueFailure
  · exact (ht t hm).not_queueFailure

namespace Machine.Inv

theorem schedule_holds (h : m.Inv) (quiet : ∀ t ∈ m.kernel.console, IsNotice t) :
    QueuesHold (processSchedule false) m.kernel := by
  cases hrun : m.kernel.sched.run with
  | nil =>
      have e := processSchedule_halts h.table hrun false
      exact queuesHold_of_notices _ (by rw [e]; rfl) quiet (lastTexts_notices _)
  | cons p rest =>
      obtain ⟨h', b', e, -⟩ := h.table.processSchedule_does hrun false
      refine queuesHold_of_notices [] ?_ quiet (by simp)
      rw [e, List.append_nil]
      rfl

theorem fork_holds (h : m.Inv) (quiet : ∀ t ∈ m.kernel.console, IsNotice t)
    (answers : ForkAnswers) : QueuesHold (processFork answers) m.kernel := by
  obtain ⟨t, ht, e⟩ | ⟨-, r, K, e, -⟩ := processFork_spec h.table answers
  · exact queuesHold_of_notices [t] (by rw [e]; rfl) quiet (by simpa using ForkAnswers.refusal_notice ht)
  · obtain ⟨p, rest, -, hm, -⟩ := h.fork_moves e
    refine queuesHold_of_notices [] ?_ quiet (by simp)
    rw [e, List.append_nil, ← hm.console]
    rfl

theorem exit_holds (h : m.Inv) (quiet : ∀ t ∈ m.kernel.console, IsNotice t)
    (active : m.Active p) : QueuesHold trapExit m.kernel := by
  obtain ⟨others, hrun⟩ := h.run_eq active.1
  cases others with
  | nil =>
      have e := h.exit_halts active.1 hrun
      exact queuesHold_of_notices _ (by rw [e]; rfl) quiet (lastTexts_notices _)
  | cons q rest =>
      obtain ⟨K, e, hm, -⟩ := h.exit_runs hrun
      refine queuesHold_of_notices [] ?_ quiet (by simp)
      rw [e, List.append_nil, ← hm.console]
      rfl

theorem call_holds (h : m.Inv) (quiet : ∀ t ∈ m.kernel.console, IsNotice t) {c : Syscall}
    {level : BitVec 4} (active : m.Active p) (legal : c.Legal m.kernel) :
    c.run.run (m.kernel.setIntrs level) = .error .wildAccess ∨
      QueuesHold c.run (m.kernel.setIntrs level) := by
  have legal₀ : c.Legal (m.kernel.setIntrs level) := by cases c <;> exact legal
  rcases ((h.serving active.1).setIntrs level).quiet legal₀ quiet with e | ⟨texts, e, ht⟩
  · exact .inl e
  · exact .inr ⟨texts, e, fun t hm => (ht t hm).not_queueFailure⟩

/-- The free links are counted off the pool. -/
theorem free_links (h : m.Inv)
    (hq : ∀ p ∈ m.kernel.sched.wait, ∃ w, p ∈ m.kernel.monitor.waiting w) :
    (m.kernel.heap.items .freeLinks).length =
      queueMaxLinks - processMaxProcs - (m.kernel.list .waitQueue).length := by
  obtain ⟨S, hS⟩ := h.table.linked
  have hfree := hS.free_length h.table.sparse (W := m.kernel.sched.wait.toFinset) (fun p => by
    rcases h.placed p with hm | hm | hm
    · exact ⟨.freepcbs, rfl, hm⟩
    · exact ⟨.runQueue, rfl, hm⟩
    · exact ⟨.waitQueue, rfl, hm⟩) (fun p => by
    rw [List.mem_toFinset]
    exact ⟨hq p, fun ⟨w, hw⟩ => h.queued w p hw⟩)
  have hnd : m.kernel.sched.wait.Nodup := h.table.sparse.nodup .waitQueue
  rw [List.toFinset_card_of_nodup hnd] at hfree
  rw [(hS.represents.shape _ hS.free_known).items_eq]
  change _ = queueMaxLinks - processMaxProcs - m.kernel.sched.wait.length
  omega

end Machine.Inv

/-- Where processes sleep only in the primitives, each takes up one link, and a second one while
it waits; the other links are free, and no check of a queue operation fails. -/
theorem links_suffice (h : (kernelSystem.restrict fun _ e => ¬ e.IsRaw).Reachable m) :
    m.LinksSuffice := by
  have hinv := reachable_inv h.unrestricted
  have quiet := reachable_quiet h.unrestricted
  exact {
    free := hinv.free_links (reachable_queued h)
    schedules := hinv.schedule_holds quiet
    forks := hinv.fork_holds quiet
    exits := fun p active => hinv.exit_holds quiet active
    serves := fun p c level active legal => hinv.call_holds quiet active legal
    returns := fun level =>
      queuesHold_of_notices [] (by rw [List.append_nil]; rfl) quiet (by simp) }

theorem links_suffice_waiting : ∃ (m : Machine) (p : PcbPtr) (b : CondPtr),
    p ∈ m.kernel.list (.waiting (.cond b)) ∧ m.LinksSuffice := by
  obtain ⟨m, p, q, k, b, h⟩ := exists_waiting
  have hp : p ∈ m.kernel.monitor.waiting (.cond b) := by simp [h.waits]
  exact ⟨m, p, b, hp, links_suffice (h.reach.weaken fun _ _ => KEvent.Plain.not_raw)⟩

end DlxOs.Kernel
