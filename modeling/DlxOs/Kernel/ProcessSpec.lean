import DlxOs.Kernel.Actions

/-!
# What the process routines do to the lists

`Table` is the part of the process-table invariant that holds also inside a
kernel call: the links spell out the lists, and the status of a PCB names the
queue it is on. Each routine keeps it and moves one process.
-/

namespace DlxOs.Kernel

open Queue Monitors

variable {K K' : KState} {p : PcbPtr} {q r : KQueue} {st : BitVec 32}

/-- The status of the processes on a queue of the table. -/
def KQueue.status : KQueue → Option (BitVec 32)
  | .freepcbs => some processStatusFree
  | .runQueue => some processStatusRunnable
  | .waitQueue => some processStatusWaiting
  | .zombieQueue => some processStatusZombie
  | .waiting _ => none

/-- The status bits of a process. -/
def KState.statusOf (K : KState) (p : PcbPtr) : BitVec 32 :=
  (K.pcbs p).flags &&& processStatusMask

namespace KState

/-- The state with another heap and other PCBs. -/
def remake (K : KState) (h : Heap KQueue PcbPtr) (b : PcbPtr → PCB) : KState :=
  { K with heap := h, pcbs := b }

@[simp] theorem remake_remake (K : KState) (h h' : Heap KQueue PcbPtr) (b b' : PcbPtr → PCB) :
    (K.remake h b).remake h' b' = K.remake h' b' := rfl

@[simp] theorem remake_self (K : KState) : K.remake K.heap K.pcbs = K := rfl

@[simp] theorem remake_currentPCB (K : KState) (h : Heap KQueue PcbPtr) (b : PcbPtr → PCB) :
    (K.remake h b).currentPCB = K.currentPCB := rfl

@[simp] theorem remake_sems (K : KState) (h : Heap KQueue PcbPtr) (b : PcbPtr → PCB) :
    (K.remake h b).sems = K.sems := rfl

@[simp] theorem remake_locks (K : KState) (h : Heap KQueue PcbPtr) (b : PcbPtr → PCB) :
    (K.remake h b).locks = K.locks := rfl

@[simp] theorem remake_conds (K : KState) (h : Heap KQueue PcbPtr) (b : PcbPtr → PCB) :
    (K.remake h b).conds = K.conds := rfl

@[simp] theorem remake_console (K : KState) (h : Heap KQueue PcbPtr) (b : PcbPtr → PCB) :
    (K.remake h b).console = K.console := rfl

@[simp] theorem remake_intrs (K : KState) (h : Heap KQueue PcbPtr) (b : PcbPtr → PCB) :
    (K.remake h b).intrs = K.intrs := rfl

@[simp] theorem remake_inuse (K : KState) (h : Heap KQueue PcbPtr) (b : PcbPtr → PCB) :
    (K.remake h b).inuse = K.inuse := inuse_congr rfl rfl rfl

theorem ready_congr (h : K'.inuse = K.inuse) : K'.ready = K.ready := by
  funext q
  cases q with
  | waiting w => exact congrFun h w
  | _ => rfl

theorem list_congr (hh : K'.heap = K.heap) (hu : K'.inuse = K.inuse) : K'.list = K.list := by
  funext q
  rw [list, list, hh, ready_congr hu]

end KState

/-- The lists are read off the heap, the links of the PCBs and the marks of use. -/
theorem Linked.congr (h : Linked K) (hh : K'.heap = K.heap) (hu : K'.inuse = K.inuse)
    (hl : ∀ p, (K'.pcbs p).l = (K.pcbs p).l) : Linked K' := by
  obtain ⟨S, hS⟩ := h
  refine ⟨S, hh ▸ hS.represents, fun q => ?_, fun q hq => ?_, hS.attached, fun q hq l hm p e => ?_⟩
  · rw [KState.ready_congr hu]
    exact hS.known q
  · rw [KState.ready_congr hu] at hq
    exact hS.object q hq
  · rw [hl]
    exact hS.own q hq l hm p e

/-- The lists are spelled out, and each status names its queue. -/
structure Table (K : KState) : Prop where
  linked : Linked K
  sparse : Sparse K.list
  status : ∀ q st, q.status = some st → ∀ p ∈ K.list q, K.statusOf p = st

/-- Only the heap, the PCBs and the marks of use matter. -/
theorem Table.congr (h : Table K) (hh : K'.heap = K.heap) (hb : K'.pcbs = K.pcbs)
    (hu : K'.inuse = K.inuse) : Table K' := by
  have hlist := KState.list_congr hh hu
  refine ⟨h.linked.congr hh hu fun p => by rw [hb], hlist ▸ h.sparse, fun q st hq p hp => ?_⟩
  rw [KState.statusOf, hb]
  exact h.status q st hq p (hlist ▸ hp)

/-- Setting the status leaves the other flags. -/
theorem status_set (f : BitVec 32) (hst : st &&& processStatusMask = st) :
    ((f &&& ~~~processStatusMask) ||| st) &&& processStatusMask = st := by
  refine BitVec.eq_of_getLsbD_eq fun i _ => ?_
  have h : (st.getLsbD i && processStatusMask.getLsbD i) = st.getLsbD i := by
    rw [← BitVec.getLsbD_and, hst]
  rw [BitVec.getLsbD_and, BitVec.getLsbD_or, BitVec.getLsbD_and, BitVec.getLsbD_not, ← h]
  cases f.getLsbD i <;> cases processStatusMask.getLsbD i <;> simp

theorem status_mem (hq : q.status = some st) :
    st &&& processStatusMask = st ∧ q.isTable = true := by
  cases q with
  | waiting w => cases hq
  | _ => exact ⟨by cases hq; decide, rfl⟩

/-- The routine links a PCB on no queue of the table to queue `q`. -/
def LinksTo (q : KQueue) (ins : Option LinkPtr → String → KernelM Unit)
    (f : PcbPtr → List PcbPtr → List PcbPtr) : Prop :=
  ∀ (K : KState) (p : PcbPtr) (t₁ t₂ : String), Linked K → Sparse K.list →
    (∀ r, r.isTable = true → p ∉ K.list r) →
    ∃ h' l, (linkPcb p ins t₁ t₂).run K = .ok ((), (K.setHeap h').setLink p (some l)) ∧
      Linked ((K.setHeap h').setLink p (some l)) ∧
      (K.setHeap h').list = Function.update K.list q (f p (K.list q))

theorem linksTo_last (hq : q.isTable = true) :
    LinksTo q (insertLast q) fun p ps => ps ++ [p] :=
  fun _ _ t₁ t₂ h hs hp => linkPcb_last_spec h hs hq hp t₁ t₂

theorem linksTo_first (hq : q.isTable = true) :
    LinksTo q (insertFirst q) fun p ps => p :: ps :=
  fun _ _ t₁ t₂ h hs hp => linkPcb_first_spec h hs hq hp t₁ t₂

/-- A process on no queue of the table is linked to one whose status it has. -/
theorem Table.link (h : Table K) (hq : q.status = some st) (hst : K.statusOf p = st)
    (hp : ∀ r, r.isTable = true → p ∉ K.list r)
    {ins : Option LinkPtr → String → KernelM Unit} {f : PcbPtr → List PcbPtr → List PcbPtr}
    (hins : LinksTo q ins f) (hf : ∀ p ps, (f p ps).Perm (p :: ps)) (t₁ t₂ : String) :
    ∃ h' b', (linkPcb p ins t₁ t₂).run K = .ok ((), K.remake h' b') ∧ Table (K.remake h' b') ∧
      (K.remake h' b').list = Function.update K.list q (f p (K.list q)) ∧
      ∀ p', (b' p').flags = (K.pcbs p').flags := by
  obtain ⟨h', l, e, hL, hlist⟩ := hins K p t₁ t₂ h.linked h.sparse hp
  have hlist' : ((K.setHeap h').setLink p (some l)).list =
      Function.update K.list q (f p (K.list q)) := by rw [KState.setLink_list, hlist]
  have htable := (status_mem hq).2
  refine ⟨h', ((K.setHeap h').setLink p (some l)).pcbs, e, ⟨hL, ?_, fun r s hr p' hp' => ?_⟩,
    hlist', fun p' => by simp⟩
  · change Sparse ((K.setHeap h').setLink p (some l)).list
    rw [hlist']
    refine h.sparse.update ((hf p _).nodup_iff.mpr ?_) fun p' hm => ?_
    · exact List.nodup_cons.mpr ⟨hp q htable, h.sparse.nodup q⟩
    · rcases List.mem_cons.mp ((hf p _).mem_iff.mp hm) with rfl | hm
      · exact .inr fun r hr => hp r (hr.trans htable)
      · exact .inl hm
  · have hflags : (K.remake h' ((K.setHeap h').setLink p (some l)).pcbs).statusOf p' =
        K.statusOf p' := by simp [KState.statusOf, KState.remake]
    rw [hflags]
    have hp'' : p' ∈ Function.update K.list q (f p (K.list q)) r := hlist' ▸ hp'
    by_cases e : r = q
    · subst e
      rw [Function.update_self] at hp''
      rcases List.mem_cons.mp ((hf p _).mem_iff.mp hp'') with rfl | hm
      · exact hst.trans (Option.some.inj (hq.symm.trans hr))
      · exact h.status r s hr p' hm
    · rw [Function.update_of_ne e] at hp''
      exact h.status r s hr p' hp''

/-- Taking a PCB off its queue leaves it on no queue of the table. -/
theorem Sparse.erase_gone {Q : KQueue → List PcbPtr} (hs : Sparse Q) (hq : q.isTable = true)
    (hp : p ∈ Q q) : ∀ r, r.isTable = true → p ∉ Function.update Q q ((Q q).erase p) r := by
  intro r hr hm
  by_cases e : r = q
  · subst e
    rw [Function.update_self] at hm
    exact (hs.nodup r).not_mem_erase hm
  · rw [Function.update_of_ne e] at hm
    exact e (hs.apart r q p (hr.trans hq.symm) hm hp)

/-- A PCB is taken off its queue; its status may name another queue already. -/
theorem Table.unlink (h : Linked K) (hs : Sparse K.list) (hq : q.isTable = true)
    (hp : p ∈ K.list q)
    (hst : ∀ q st, q.status = some st → ∀ p' ∈ K.list q, p' ≠ p → K.statusOf p' = st)
    (text : String) :
    ∃ h' b', (removePcb p text).run K = .ok ((), K.remake h' b') ∧ Table (K.remake h' b') ∧
      (K.remake h' b').list = Function.update K.list q ((K.list q).erase p) ∧
      (∀ p', (b' p').flags = (K.pcbs p').flags) ∧
      ∀ r, r.isTable = true → p ∉ (K.remake h' b').list r := by
  obtain ⟨h', e, hL, hlist⟩ := removePcb_spec h hs hq hp text
  have hlist' : ((K.setHeap h').setLink p none).list =
      Function.update K.list q ((K.list q).erase p) := by rw [KState.setLink_list, hlist]
  have gone := hs.erase_gone hq hp
  refine ⟨h', ((K.setHeap h').setLink p none).pcbs, e, ⟨hL, ?_, fun r s hr p' hp' => ?_⟩,
    hlist', fun p' => by simp, fun r hr => ?_⟩
  · change Sparse ((K.setHeap h').setLink p none).list
    rw [hlist']
    exact hs.update ((hs.nodup q).erase p) fun p' hm => .inl (List.mem_of_mem_erase hm)
  · have hflags : (K.remake h' ((K.setHeap h').setLink p none).pcbs).statusOf p' =
        K.statusOf p' := by simp [KState.statusOf, KState.remake]
    rw [hflags]
    have hp'' : p' ∈ Function.update K.list q ((K.list q).erase p) r := hlist' ▸ hp'
    have hne : p' ≠ p := fun c => gone r (status_mem hr).2 (c ▸ hp'')
    refine hst r s hr p' ?_ hne
    by_cases e : r = q
    · subst e
      rw [Function.update_self] at hp''
      exact List.mem_of_mem_erase hp''
    · rwa [Function.update_of_ne e] at hp''
  · change p ∉ ((K.setHeap h').setLink p none).list r
    rw [hlist']
    exact gone r hr

namespace KState

@[simp] theorem setFlags_heap (K : KState) (p : PcbPtr) (f : BitVec 32) :
    (K.setFlags p f).heap = K.heap := rfl

@[simp] theorem setFlags_inuse (K : KState) (p : PcbPtr) (f : BitVec 32) :
    (K.setFlags p f).inuse = K.inuse := inuse_congr rfl rfl rfl

@[simp] theorem setFlags_list (K : KState) (p : PcbPtr) (f : BitVec 32) :
    (K.setFlags p f).list = K.list := list_congr rfl (by simp)

@[simp] theorem setFlags_statusOf (K : KState) (p : PcbPtr) (f : BitVec 32) :
    (K.setFlags p f).statusOf p = f &&& processStatusMask := by
  simp [statusOf, setFlags, setPcb]

theorem setFlags_statusOf_of_ne (K : KState) {p p' : PcbPtr} (f : BitVec 32) (h : p' ≠ p) :
    (K.setFlags p f).statusOf p' = K.statusOf p' := by
  simp [statusOf, setFlags, setPcb, h]

@[simp] theorem setFlags_link (K : KState) (p p' : PcbPtr) (f : BitVec 32) :
    ((K.setFlags p f).pcbs p').l = (K.pcbs p').l := by
  by_cases h : p' = p
  · subst h
    simp [setFlags, setPcb]
  · simp [setFlags, setPcb, h]

end KState

/-- A process with a new status changes over to the queue that the status names. -/
theorem Table.move (h : Table K) (hq : q.isTable = true) (hp : p ∈ K.list q)
    (hr : r.status = some st)
    {ins : Option LinkPtr → String → KernelM Unit} {f : PcbPtr → List PcbPtr → List PcbPtr}
    (hins : LinksTo r ins f) (hf : ∀ p ps, (f p ps).Perm (p :: ps)) (t₁ t₂ t₃ : String) :
    ∃ h' b', (do processSetStatus p st; requeue p ins t₁ t₂ t₃).run K =
        .ok ((), K.remake h' b') ∧
      Table (K.remake h' b') ∧
      (K.remake h' b').list =
        Function.update (Function.update K.list q ((K.list q).erase p)) r
          (f p (Function.update K.list q ((K.list q).erase p) r)) := by
  let K₁ := K.setFlags p (((K.pcbs p).flags &&& ~~~processStatusMask) ||| st)
  have hlist : K₁.list = K.list := KState.setFlags_list ..
  have hlinked : Linked K₁ := h.linked.congr rfl (by simp [K₁]) (by simp [K₁])
  have hself : K₁.statusOf p = st := by
    rw [KState.setFlags_statusOf]
    exact status_set _ (status_mem hr).1
  have hother : ∀ p', p' ≠ p → K₁.statusOf p' = K.statusOf p' := fun p' e =>
    KState.setFlags_statusOf_of_ne _ _ e
  obtain ⟨h₁, b₁, e₁, hT₁, hlist₁, hb₁, hgone⟩ := Table.unlink (K := K₁) (q := q) hlinked
    (hlist ▸ h.sparse) hq (hlist ▸ hp)
    (fun r s hr p' hp' e => by rw [hother p' e]; exact h.status r s hr p' (hlist ▸ hp')) t₁
  have hst : (K₁.remake h₁ b₁).statusOf p = st := by
    rw [← hself]
    exact congrArg (· &&& processStatusMask) (hb₁ p)
  obtain ⟨h₂, b₂, e₂, hT₂, hlist₂, -⟩ := hT₁.link hr hst hgone hins hf t₂ t₃
  rw [hlist] at hlist₁
  refine ⟨h₂, b₂, ?_, hT₂, ?_⟩
  · have e₀ : (processSetStatus p st).run K = .ok ((), K₁) := rfl
    rw [run_bind_ok e₀, requeue, run_bind_ok e₁]
    exact e₂
  · rw [show (K.remake h₂ b₂).list = ((K₁.remake h₁ b₁).remake h₂ b₂).list from rfl, hlist₂,
      hlist₁]

/-- The bit of the status a process has is set. -/
theorem status_bit {f : BitVec 32} (h : f &&& processStatusMask = st)
    (hst : st &&& processStatusMask = st) (h0 : st ≠ 0) : (f &&& st != 0) = true := by
  have e : f &&& st = st := by
    calc f &&& st = f &&& (st &&& processStatusMask) := by rw [hst]
      _ = (f &&& processStatusMask) &&& st := by rw [BitVec.and_comm st, BitVec.and_assoc]
      _ = st := by rw [h, BitVec.and_self]
  rw [e]
  simpa using h0

theorem get_bind_run {α : Type} (f : KState → KernelM α) : (get >>= f).run K = (f K).run K := rfl

/-- An assertion that holds prints nothing. -/
theorem assert_run (f s : String) {c : Bool} (h : c = true) :
    (assert f c s).run K = .ok ((), K) := by
  rw [assert, if_pos h]
  rfl

/-- `ProcessSuspend` of a runnable process. -/
theorem processSuspend_spec (h : Table K) (hp : p ∈ K.list .runQueue) :
    ∃ h' b', (processSuspend p).run K = .ok ((), K.remake h' b') ∧ Table (K.remake h' b') ∧
      (K.remake h' b').list =
        Function.update (Function.update K.list .runQueue ((K.list .runQueue).erase p)) .waitQueue
          (K.list .waitQueue ++ [p]) := by
  obtain ⟨h', b', e, hT, hlist⟩ := h.move (q := .runQueue) (r := .waitQueue) rfl hp rfl
    (linksTo_last rfl) (fun p ps => List.perm_append_comm)
    "FATAL ERROR: could not remove process from run Queue in ProcessSuspend!\n"
    "FATAL ERROR: could not get Queue Link in ProcessSuspend!\n"
    "FATAL ERROR: could not insert suspend PCB into waitQueue!\n"
  have hbit := status_bit (h.status .runQueue _ rfl p hp) (by decide) (by decide)
  refine ⟨h', b', ?_, hT, by simpa using hlist⟩
  rw [processSuspend, get_bind_run, run_bind_ok (assert_run _ _ hbit)]
  exact e

/-- `ProcessWakeup` of a sleeping process. -/
theorem processWakeup_spec (h : Table K) (hp : p ∈ K.list .waitQueue) :
    ∃ h' b', (processWakeup p).run K = .ok ((), K.remake h' b') ∧ Table (K.remake h' b') ∧
      (K.remake h' b').list =
        Function.update (Function.update K.list .waitQueue ((K.list .waitQueue).erase p)) .runQueue
          (K.list .runQueue ++ [p]) := by
  obtain ⟨h', b', e, hT, hlist⟩ := h.move (q := .waitQueue) (r := .runQueue) rfl hp rfl
    (linksTo_last rfl) (fun p ps => List.perm_append_comm)
    "FATAL ERROR: could not remove wakeup PCB from waitQueue in ProcessWakeup!\n"
    "FATAL ERROR: could not get link for wakeup PCB in ProcessWakeup!\n"
    "FATAL ERROR: could not insert link into runQueue in ProcessWakeup!\n"
  have hbit := status_bit (h.status .waitQueue _ rfl p hp) (by decide) (by decide)
  refine ⟨h', b', ?_, hT, by simpa using hlist⟩
  rw [processWakeup, get_bind_run, run_bind_ok (assert_run _ _ hbit)]
  exact e

/-- `ProcessDestroy` of a runnable process. -/
theorem processDestroy_spec (h : Table K) (hp : p ∈ K.list .runQueue) :
    ∃ h' b', (processDestroy p).run K = .ok ((), K.remake h' b') ∧ Table (K.remake h' b') ∧
      (K.remake h' b').list =
        Function.update (Function.update K.list .runQueue ((K.list .runQueue).erase p))
          .zombieQueue (p :: K.list .zombieQueue) := by
  obtain ⟨h', b', e, hT, hlist⟩ := h.move (q := .runQueue) (r := .zombieQueue) rfl hp rfl
    (linksTo_first rfl) (fun p ps => List.Perm.refl _)
    "FATAL ERROR: could not remove link from queue in ProcessDestroy!\n"
    "FATAL ERROR: could not get link for zombie PCB in ProcessDestroy!\n"
    "FATAL ERROR: could not insert link into runQueue in ProcessWakeup!\n"
  exact ⟨h', b', e, hT, by simpa using hlist⟩

/-- The flags of a process on no queue are free to change. -/
theorem Table.setFlags_gone (h : Table K) (hp : ∀ r, r.isTable = true → p ∉ K.list r)
    (f : BitVec 32) : Table (K.setFlags p f) := by
  refine ⟨h.linked.congr rfl (by simp) (by simp), by simpa using h.sparse,
    fun q st hq p' hp' => ?_⟩
  rw [KState.setFlags_list] at hp'
  have hne : p' ≠ p := fun e => hp q (status_mem hq).2 (e ▸ hp')
  rw [KState.setFlags_statusOf_of_ne _ _ hne]
  exact h.status q st hq p' hp'

/-- Setting the flags commutes with the allocation of the link. -/
theorem allocPcb_setFlags (p : PcbPtr) (f : BitVec 32) (text : String) {α : Type}
    (k : KernelM α) :
    (do allocPcb p text; modify (fun K => K.setFlags p f); k : KernelM α).run K =
      (do allocPcb p text; k : KernelM α).run (K.setFlags p f) := by
  have hcomm : ∀ (h : Heap KQueue PcbPtr) (l : Option LinkPtr),
      ((K.setHeap h).setLink p l).setFlags p f = ((K.setFlags p f).setHeap h).setLink p l := by
    intro h l
    simp [KState.setHeap, KState.setLink, KState.setFlags, KState.setPcb]
  rcases e : aQueueAllocLink K.heap (some p) with ⟨_ | l, h₁⟩
  · have ha : (allocLink p text).run K = .error (.exitsim (K.console ++ [text])) := by
      simp [allocLink, e, fatal, printf]
      rfl
    have ha' : (allocLink p text).run (K.setFlags p f) =
        .error (.exitsim (K.console ++ [text])) := by
      simp [allocLink, e, fatal, printf]
      rfl
    simp [allocPcb, ha, ha']
    rfl
  · have e' : aQueueAllocLink (K.setFlags p f).heap (some p) = (some l, h₁) := e
    rw [run_bind_ok (allocPcb_run text e), run_bind_ok (allocPcb_run text e')]
    rw [← hcomm]
    rfl

/-- `ProcessFreeResources` of a process on no queue. -/
theorem processFreeResources_spec (h : Table K) (hp : ∀ r, r.isTable = true → p ∉ K.list r) :
    ∃ h' b', (processFreeResources p).run K = .ok ((), K.remake h' b') ∧
      Table (K.remake h' b') ∧
      (K.remake h' b').list =
        Function.update K.list .freepcbs (K.list .freepcbs ++ [p]) := by
  let K₁ := K.setFlags p processStatusFree
  have hlist : K₁.list = K.list := KState.setFlags_list ..
  have hself : K₁.statusOf p = processStatusFree := by
    rw [KState.setFlags_statusOf]
    decide
  have hT₁ : Table K₁ := h.setFlags_gone hp processStatusFree
  obtain ⟨h', b', e, hT, hlist', hflags⟩ := hT₁.link (q := .freepcbs) rfl hself
    (by rw [hlist]; exact hp) (linksTo_last rfl) (fun p ps => List.perm_append_comm)
    "FATAL ERROR: could not get Queue Link in ProcessFreeResources!\n"
    "FATAL ERROR: could not insert PCB link into freepcbs queue in ProcessFreeResources!\n"
  have hfree : (b' p).flags = processStatusFree := by
    rw [hflags p]
    simp [K₁, KState.setFlags, KState.setPcb]
  have hset : (processSetStatus p processStatusFree).run (K.remake h' b') =
      .ok ((), K.remake h' b') := by
    have hsame : (K.remake h' b').setFlags p
        (((b' p).flags &&& ~~~processStatusMask) ||| processStatusFree) = K.remake h' b' := by
      have hf : ((b' p).flags &&& ~~~processStatusMask) ||| processStatusFree = (b' p).flags := by
        rw [hfree]
        decide
      rw [hf]
      simp [KState.setFlags, KState.setPcb, KState.remake]
    exact congrArg (fun K' => Except.ok ((), K')) hsame
  refine ⟨h', b', ?_, hT, by rw [← hlist]; exact hlist'⟩
  rw [processFreeResources, allocPcb_setFlags]
  have e₂ : (do
      linkPcb p (insertLast .freepcbs)
        "FATAL ERROR: could not get Queue Link in ProcessFreeResources!\n"
        "FATAL ERROR: could not insert PCB link into freepcbs queue in ProcessFreeResources!\n"
      processSetStatus p processStatusFree : KernelM Unit).run K₁ = .ok ((), K.remake h' b') :=
    (run_bind_ok e).trans hset
  simpa only [linkPcb, bind_assoc] using e₂

end DlxOs.Kernel
