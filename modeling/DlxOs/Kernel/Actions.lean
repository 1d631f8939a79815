import DlxOs.Kernel.Links

/-!
# The elementary actions succeed and change one list

Each action of the kernel on its queues is shown here to return, without any of
its fatal exits, with the lists changed as intended and everything else kept.
-/

namespace DlxOs.Kernel

open Queue Monitors

variable {K K₁ : KState} {S : Pool KQueue PcbPtr} {α β : Type} {p : PcbPtr} {q r : KQueue}
  {l : LinkPtr} {w : WaitObject} {h₁ h₂ : Heap KQueue PcbPtr}

/-- The continuation runs where its first part ended. -/
theorem run_bind_ok {x : KernelM α} {f : α → KernelM β} {a : α} (h : x.run K = .ok (a, K₁)) :
    (x >>= f).run K = (f a).run K₁ := by
  rw [StateT.run_bind, h, ok_bind]

namespace KState

@[simp] theorem setHeap_heap (K : KState) (h : Heap KQueue PcbPtr) : (K.setHeap h).heap = h := rfl
@[simp] theorem setHeap_setHeap (K : KState) (h g : Heap KQueue PcbPtr) :
    (K.setHeap h).setHeap g = K.setHeap g := rfl
@[simp] theorem setHeap_pcbs (K : KState) (h : Heap KQueue PcbPtr) :
    (K.setHeap h).pcbs = K.pcbs := rfl
@[simp] theorem setHeap_ready (K : KState) (h : Heap KQueue PcbPtr) :
    (K.setHeap h).ready = K.ready := by
  funext q
  cases q with
  | waiting w => cases w <;> rfl
  | _ => rfl

@[simp] theorem setLink_heap (K : KState) (p : PcbPtr) (l : Option LinkPtr) :
    (K.setLink p l).heap = K.heap := rfl
@[simp] theorem setLink_ready (K : KState) (p : PcbPtr) (l : Option LinkPtr) :
    (K.setLink p l).ready = K.ready := by
  funext q
  cases q with
  | waiting w => cases w <;> rfl
  | _ => rfl
@[simp] theorem setLink_self (K : KState) (p : PcbPtr) (l : Option LinkPtr) :
    ((K.setLink p l).pcbs p).l = l := by
  simp [setLink, setPcb]
theorem setLink_of_ne (K : KState) {p p' : PcbPtr} (l : Option LinkPtr) (h : p' ≠ p) :
    ((K.setLink p l).pcbs p').l = (K.pcbs p').l := by
  simp [setLink, setPcb, h]
@[simp] theorem setLink_flags (K : KState) (p p' : PcbPtr) (l : Option LinkPtr) :
    ((K.setLink p l).pcbs p').flags = (K.pcbs p').flags := by
  by_cases h : p' = p
  · subst h
    simp [setLink, setPcb]
  · simp [setLink, setPcb, h]
@[simp] theorem setLink_list (K : KState) (p : PcbPtr) (l : Option LinkPtr) :
    (K.setLink p l).list = K.list := by
  funext q
  simp only [list, setLink_ready, setLink_heap]
@[simp] theorem setLink_setLink (K : KState) (p : PcbPtr) (l l' : Option LinkPtr) :
    (K.setLink p l).setLink p l' = K.setLink p l' := by
  simp [setLink, setPcb]
theorem setLink_setHeap (K : KState) (p : PcbPtr) (l : Option LinkPtr) (h : Heap KQueue PcbPtr) :
    (K.setLink p l).setHeap h = (K.setHeap h).setLink p l := rfl

end KState

theorem allocLink_run (text : String) (e : aQueueAllocLink K.heap (some p) = (some l, h₁)) :
    (allocLink p text).run K = .ok (l, K.setHeap h₁) := by
  simp [allocLink, e]
  rfl

theorem allocPcb_run (text : String) (e : aQueueAllocLink K.heap (some p) = (some l, h₁)) :
    (allocPcb p text).run K = .ok ((), (K.setHeap h₁).setLink p (some l)) := by
  simp [allocPcb, allocLink_run text e]

theorem checked_run {op : Heap KQueue PcbPtr → Int × Heap KQueue PcbPtr} (text : String)
    (e : op K.heap = (queueSuccess, h₁)) : (checked op text).run K = .ok ((), K.setHeap h₁) := by
  simp [checked, e]
  rfl

/-- Appending a new link: the queue operations succeed. -/
theorem LinkedBy.alloc_last (h : LinkedBy K S) (hs : Sparse K.list) (hq : K.ready q = true)
    (p : PcbPtr) : ∃ l rest h₁ h₂, S.items .freeLinks = l :: rest ∧
      aQueueAllocLink K.heap (some p) = (some l, h₁) ∧
      aQueueInsertLast h₁ (some (.named q)) (some l) = (queueSuccess, h₂) ∧
      Represents h₂ (placedPool S q p rest (S.items (.named q)) l []) := by
  obtain ⟨l, rest, hfree⟩ := List.exists_cons_of_ne_nil (h.free_ne_nil hs)
  obtain ⟨h₁, e₁, hl, t₁⟩ := h.represents.alloc hfree (some p)
  obtain ⟨e₂, t₂⟩ := (t₁.float hl).append (q := .named q) ((h.known q).mpr hq)
  refine ⟨l, rest, h₁, _, hfree, e₁, e₂, ?_⟩
  simpa [placedPool, Pool.setItems] using t₂

/-- Prepending a new link: the queue operations succeed. -/
theorem LinkedBy.alloc_first (h : LinkedBy K S) (hs : Sparse K.list) (hq : K.ready q = true)
    (p : PcbPtr) : ∃ l rest h₁ h₂, S.items .freeLinks = l :: rest ∧
      aQueueAllocLink K.heap (some p) = (some l, h₁) ∧
      aQueueInsertFirst h₁ (some (.named q)) (some l) = (queueSuccess, h₂) ∧
      Represents h₂ (placedPool S q p rest [] l (S.items (.named q))) := by
  obtain ⟨l, rest, hfree⟩ := List.exists_cons_of_ne_nil (h.free_ne_nil hs)
  obtain ⟨h₁, e₁, hl, t₁⟩ := h.represents.alloc hfree (some p)
  obtain ⟨e₂, t₂⟩ := (t₁.float hl).prepend (q := .named q) ((h.known q).mpr hq)
  refine ⟨l, rest, h₁, _, hfree, e₁, e₂, ?_⟩
  simpa [placedPool, Pool.setItems] using t₂

/-- The current process joins the tail of a waiting queue. -/
theorem enqueueCurrent_spec (h : Linked K) (hs : Sparse K.list) (hw : K.inuse w = true)
    (hc : K.currentPCB = some p) (t₁ t₂ : String) :
    ∃ h', (enqueueCurrent w t₁ t₂).run K = .ok ((), K.setHeap h') ∧ Linked (K.setHeap h') ∧
      (K.setHeap h').list =
        Function.update K.list (.waiting w) (K.list (.waiting w) ++ [p]) := by
  obtain ⟨S, hS⟩ := h
  obtain ⟨l, rest, h₁, h₂, hfree, e₁, e₂, t⟩ := hS.alloc_last (q := .waiting w) hs hw p
  obtain ⟨hL, hlist⟩ := hS.place (q := .waiting w) hw hfree (List.append_nil _).symm (K.setHeap h₂) t
    (by simp) (fun _ _ => rfl) (fun c => by cases c) fun c => by cases c
  refine ⟨h₂, ?_, ⟨_, hL⟩, ?_⟩
  · have e₃ : (insertLast (.waiting w) (some l) t₂).run (K.setHeap h₁) =
        .ok ((), K.setHeap h₂) := checked_run t₂ e₂
    have ec : (current).run K = .ok (p, K) := by simp [current, hc]; rfl
    simp [enqueueCurrent, ec, allocLink_run t₁ e₁, e₃]
  · rw [hlist, hS.list_eq (q := .waiting w) hw]
    rfl

/-- The test for an empty queue. -/
theorem isEmpty_spec (h : Linked K) (hq : K.ready q = true) :
    (isEmpty q).run K = .ok (decide (K.list q = []), K) := by
  obtain ⟨S, hS⟩ := h
  have hs := hS.represents.shape _ ((hS.known q).mpr hq)
  have e : aQueueEmpty K.heap (.named q) = decide (K.list q = []) := by
    rw [Bool.eq_iff_iff, hs.isEmpty_iff, decide_eq_true_iff, ← List.map_eq_nil_iff (f := S.object),
      hS.map_object hq, List.map_eq_nil_iff]
  simp [isEmpty, e]
  rfl

/-- The first process of a queue, behind its first link. -/
theorem LinkedBy.firstPcb (hS : LinkedBy K S) {rest : List PcbPtr} (hl : K.list q = p :: rest) :
    ∃ l ys, S.items (.named q) = l :: ys ∧ S.object l = some p ∧
      ys.filterMap S.object = rest ∧ (firstPcb q).run K = .ok ((l, p), K) := by
  have hq : K.ready q = true := LinkedBy.ready_of_mem (p := p) (by simp [hl])
  have hm := hS.map_object hq
  have hp := hS.list_eq hq
  have hs := hS.represents.shape _ ((hS.known q).mpr hq)
  rw [hl] at hm hp
  cases hL : S.items (.named q) with
  | nil => rw [hL] at hm; cases hm
  | cons l ys =>
      rw [hL, List.map_cons, List.map_cons] at hm
      have hobj : S.object l = some p := (List.cons.inj hm).1
      have hobj' : K.heap.object l = some p := hS.represents.object ▸ hobj
      have hfirst : K.heap.first (.named q) = some l := by rw [hs.first, hL]; rfl
      refine ⟨l, ys, rfl, hobj, ?_, ?_⟩
      · rw [pids, hL, List.filterMap_cons_some hobj] at hp
        exact (List.cons.inj hp).2.symm
      · simp [Kernel.firstPcb, aQueueFirst, aQueueObject, hfirst, hobj']
        rfl

/-- The first process leaves a waiting queue. -/
theorem dequeueFirst_spec (h : Linked K) {rest : List PcbPtr}
    (hl : K.list (.waiting w) = p :: rest) (text : String) :
    ∃ h', (dequeueFirst w text).run K = .ok (p, K.setHeap h') ∧ Linked (K.setHeap h') ∧
      (K.setHeap h').list = Function.update K.list (.waiting w) rest := by
  obtain ⟨S, hS⟩ := h
  have hq : K.ready (.waiting w) = true := LinkedBy.ready_of_mem (p := p) (by simp [hl])
  obtain ⟨l, ys, hL, hobj, hrest, hfirst⟩ := hS.firstPcb hl
  have hk := (hS.known _).mpr hq
  obtain ⟨h', e, t⟩ := hS.represents.remove hk (l := l) (by simp [hL]) rfl
  have hL₀ : S.items (.named (.waiting w)) = [] ++ l :: ys := hL
  obtain ⟨hL', hlist⟩ := hS.unplace hq hL₀ hobj (K.setHeap h') t (by simp) fun _ _ => rfl
  refine ⟨h', ?_, ⟨_, hL'⟩, ?_⟩
  · have er : (removeLink (some l) text).run K = .ok ((), K.setHeap h') :=
      checked_run text (by simp [e])
    simp [dequeueFirst, hfirst, er]
  · rw [hlist, hrest]
    rfl

/-- A PCB on no queue of the table is linked to the tail of one. -/
theorem linkPcb_last_spec (h : Linked K) (hs : Sparse K.list) (hq : q.isTable = true)
    (hp : ∀ r, r.isTable = true → p ∉ K.list r) (t₁ t₂ : String) :
    ∃ h' l, (linkPcb p (insertLast q) t₁ t₂).run K = .ok ((), (K.setHeap h').setLink p (some l)) ∧
      Linked ((K.setHeap h').setLink p (some l)) ∧
      (K.setHeap h').list = Function.update K.list q (K.list q ++ [p]) := by
  obtain ⟨S, hS⟩ := h
  have hr := ready_of_isTable (K := K) hq
  obtain ⟨l, rest, h₁, h₂, hfree, e₁, e₂, t⟩ := hS.alloc_last hs hr p
  obtain ⟨hL, hlist⟩ := hS.place hr hfree (List.append_nil _).symm
    ((K.setHeap h₂).setLink p (some l)) t (by simp)
    (fun p' ht => KState.setLink_of_ne _ _ (ht hq)) (fun _ => KState.setLink_self ..) fun _ => hp
  rw [KState.setLink_list] at hlist
  refine ⟨h₂, l, ?_, ⟨_, hL⟩, ?_⟩
  · have e₃ : (insertLast q (some l) t₂).run ((K.setHeap h₁).setLink p (some l)) =
        .ok ((), ((K.setHeap h₁).setLink p (some l)).setHeap h₂) := checked_run t₂ e₂
    simp [linkPcb, allocPcb_run t₁ e₁, e₃, KState.setLink_setHeap]
  · rw [hlist, hS.list_eq hr]
    rfl

/-- A PCB on no queue of the table is linked to the head of one. -/
theorem linkPcb_first_spec (h : Linked K) (hs : Sparse K.list) (hq : q.isTable = true)
    (hp : ∀ r, r.isTable = true → p ∉ K.list r) (t₁ t₂ : String) :
    ∃ h' l, (linkPcb p (insertFirst q) t₁ t₂).run K = .ok ((), (K.setHeap h').setLink p (some l)) ∧
      Linked ((K.setHeap h').setLink p (some l)) ∧
      (K.setHeap h').list = Function.update K.list q (p :: K.list q) := by
  obtain ⟨S, hS⟩ := h
  have hr := ready_of_isTable (K := K) hq
  obtain ⟨l, rest, h₁, h₂, hfree, e₁, e₂, t⟩ := hS.alloc_first hs hr p
  obtain ⟨hL, hlist⟩ := hS.place hr hfree (List.nil_append _).symm
    ((K.setHeap h₂).setLink p (some l)) t (by simp)
    (fun p' ht => KState.setLink_of_ne _ _ (ht hq)) (fun _ => KState.setLink_self ..) fun _ => hp
  rw [KState.setLink_list] at hlist
  refine ⟨h₂, l, ?_, ⟨_, hL⟩, ?_⟩
  · have e₃ : (insertFirst q (some l) t₂).run ((K.setHeap h₁).setLink p (some l)) =
        .ok ((), ((K.setHeap h₁).setLink p (some l)).setHeap h₂) := checked_run t₂ e₂
    simp [linkPcb, allocPcb_run t₁ e₁, e₃, KState.setLink_setHeap]
  · rw [hlist, hS.list_eq hr]
    rfl

/-- A PCB leaves its queue of the table. -/
theorem removePcb_spec (h : Linked K) (hs : Sparse K.list) (hq : q.isTable = true)
    (hp : p ∈ K.list q) (text : String) :
    ∃ h', (removePcb p text).run K = .ok ((), (K.setHeap h').setLink p none) ∧
      Linked ((K.setHeap h').setLink p none) ∧
      (K.setHeap h').list = Function.update K.list q ((K.list q).erase p) := by
  obtain ⟨S, hS⟩ := h
  have hr := ready_of_isTable (K := K) hq
  obtain ⟨l, hl, hobj⟩ := (hS.mem_list hr).mp hp
  have hown := hS.own q hq l hl p hobj
  obtain ⟨xs, ys, hL⟩ := List.append_of_mem hl
  obtain ⟨h', e, t⟩ := hS.represents.remove ((hS.known q).mpr hr) hl rfl
  obtain ⟨hL', hlist⟩ := hS.unplace hr hL hobj ((K.setHeap h').setLink p none) t (by simp)
    fun p' ht => KState.setLink_of_ne _ _ (ht hq)
  rw [KState.setLink_list] at hlist
  refine ⟨h', ?_, ⟨_, hL'⟩, ?_⟩
  · simp [removePcb, hown, e]
    rfl
  · have hsplit : K.list q = xs.filterMap S.object ++ p :: ys.filterMap S.object := by
      rw [hS.list_eq hr, pids, hL, List.filterMap_append, List.filterMap_cons_some hobj]
    have hnd := hs.nodup q
    rw [hsplit] at hnd
    have hpx : p ∉ xs.filterMap S.object := fun hm =>
      (List.nodup_append.mp hnd).2.2 p hm p (by simp) rfl
    rw [hlist, hsplit, List.erase_append_right _ hpx, List.erase_cons_head]

/-- `AQueueMoveAfter` of the first link behind the last one. -/
theorem LinkedBy.rotate (hS : LinkedBy K S) (hq : K.ready q = true) {ys : List LinkPtr}
    (hL : S.items (.named q) = l :: ys) :
    ∃ h', (aQueueMoveAfter K.heap (some (.named q)) (aQueueLast K.heap (.named q))
        (aQueueFirst K.heap (.named q))).2 = h' ∧
      Represents h' (S.setItems (.named q) (ys ++ [l])) := by
  have hk := (hS.known q).mpr hq
  have hs := hS.represents.shape _ hk
  have hnd := hs.nodup
  rw [hL] at hnd
  have hfirst : aQueueFirst K.heap (.named q) = some l := by rw [aQueueFirst, hs.first, hL]; rfl
  rcases List.eq_nil_or_concat ys with rfl | ⟨zs, a, rfl⟩
  · have hlast : aQueueLast K.heap (.named q) = some l := by rw [aQueueLast, hs.last, hL]; rfl
    have hm : ¬ MoveRefused (S.items (.named q)) (some l) l := by simp [MoveRefused, hL]
    refine ⟨_, rfl, ?_⟩
    rw [hfirst, hlast, hS.represents.moveAfter_stay hk hm (.inr rfl)]
    rw [List.nil_append, ← hL, Pool.setItems_items]
    exact hS.represents
  · rw [List.concat_eq_append] at *
    have hal : a ≠ l := fun e => (List.nodup_cons.mp hnd).1 (by simp [e])
    have haz : a ∉ zs := fun hm =>
      (List.nodup_append.mp (List.nodup_cons.mp hnd).2).2.2 a hm a (by simp) rfl
    have hget : (l :: (zs ++ [a])).getLast? = some a := by
      rw [← List.cons_append, List.getLast?_append]
      rfl
    have hlast : aQueueLast K.heap (.named q) = some a := by rw [aQueueLast, hs.last, hL, hget]
    have hm : ¬ MoveRefused (S.items (.named q)) (some a) l := by
      rw [MoveRefused, hL, hget]
      simp [hal]
    obtain ⟨h', e, t⟩ := hS.represents.moveAfter hk hm hal
    refine ⟨h', by rw [hfirst, hlast, e], ?_⟩
    rwa [hL, List.erase_cons_head, linkAfter_append haz, List.append_cons] at t

/-- The head of the run queue goes to its tail. -/
theorem rotate_spec (h : Linked K) {rest : List PcbPtr} (hl : K.list .runQueue = p :: rest) :
    ∃ h', rotate.run K = .ok ((), K.setHeap h') ∧ Linked (K.setHeap h') ∧
      (K.setHeap h').list = Function.update K.list .runQueue (rest ++ [p]) := by
  obtain ⟨S, hS⟩ := h
  obtain ⟨l, ys, hL, hobj, hrest, -⟩ := hS.firstPcb hl
  obtain ⟨h', e, t⟩ := hS.rotate (q := .runQueue) rfl hL
  obtain ⟨hL', hlist⟩ := hS.reorder (q := .runQueue) rfl (fun k => by simp [hL, or_comm])
    (K.setHeap h') t (by simp) fun _ => rfl
  refine ⟨h', ?_, ⟨_, hL'⟩, ?_⟩
  · rw [← e]
    rfl
  · rw [hlist, List.filterMap_append, hrest, List.filterMap_cons_some hobj]
    rfl

end DlxOs.Kernel
