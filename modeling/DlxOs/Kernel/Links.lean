import DlxOs.Kernel.Synch
import DlxOs.Queue.Runs
import Mathlib.Data.Fintype.Option
import Mathlib.Data.Fintype.Prod

/-!
# The lists of processes behind the queues of the kernel

`KState.list` reads the processes off a queue. `Linked` says that the links of
the pool spell these lists out and that a PCB on a queue of the process table
points to its own link. Each elementary action of the kernel then changes one
list, and succeeds.
-/

namespace DlxOs.Kernel

open Queue Monitors

/-- The queue is one of the four of the process table. -/
def KQueue.isTable : KQueue → Bool
  | .waiting _ => false
  | _ => true

namespace KState

/-- The object is in use. -/
def inuse (K : KState) : WaitObject → Bool
  | .sem s => (K.sems s).inuse
  | .lock k => (K.locks k).inuse
  | .cond c => (K.conds c).inuse

theorem inuse_congr {K K' : KState} (hs : K'.sems = K.sems) (hl : K'.locks = K.locks)
    (hc : K'.conds = K.conds) : K'.inuse = K.inuse := by
  funext w
  cases w <;> simp [inuse, hs, hl, hc]

/-- The queue has been initialised. -/
def ready (K : KState) : KQueue → Bool
  | .waiting w => K.inuse w
  | _ => true

/-- The processes on a queue, from the first to the last. -/
def list (K : KState) (q : KQueue) : List PcbPtr :=
  if K.ready q then (K.heap.items (.named q)).filterMap K.heap.object else []

end KState

/-- The processes that the links of a queue stand for. -/
def pids (S : Pool KQueue PcbPtr) (q : KQueue) : List PcbPtr :=
  (S.items (.named q)).filterMap S.object

/-- The lists of links `S` describe the queues of the kernel. -/
structure LinkedBy (K : KState) (S : Pool KQueue PcbPtr) : Prop where
  represents : Represents K.heap S
  known : ∀ q, .named q ∈ S.known ↔ K.ready q = true
  object : ∀ q, K.ready q = true → ∀ l ∈ S.items (.named q), S.object l ≠ none
  attached : ∀ l, ∃ q ∈ S.known, l ∈ S.items q
  own : ∀ q, q.isTable = true → ∀ l ∈ S.items (.named q), ∀ p, S.object l = some p →
    (K.pcbs p).l = some l

/-- The links of the pool spell out the lists of the kernel. -/
def Linked (K : KState) : Prop := ∃ S, LinkedBy K S

/-- No process is twice on the queues of the table, nor twice on the waiting queues. -/
structure Sparse (Q : KQueue → List PcbPtr) : Prop where
  nodup : ∀ q, (Q q).Nodup
  apart : ∀ q r p, q.isTable = r.isTable → p ∈ Q q → p ∈ Q r → q = r

variable {K : KState} {S : Pool KQueue PcbPtr} {q r : KQueue} {p : PcbPtr} {l : LinkPtr}
  {w : WaitObject}

theorem ready_of_isTable (h : q.isTable = true) : K.ready q = true := by
  cases q with
  | waiting w => cases h
  | _ => rfl

/-- A map without null values is a filtered map. -/
theorem map_some_filterMap {α β : Type*} {f : α → Option β} {L : List α}
    (h : ∀ a ∈ L, f a ≠ none) : (L.filterMap f).map some = L.map f := by
  induction L with
  | nil => rfl
  | cons a rest ih =>
      obtain ⟨b, hb⟩ := Option.ne_none_iff_exists'.mp (h a (by simp))
      rw [List.filterMap_cons_some hb, List.map_cons, List.map_cons, hb,
        ih fun c hc => h c (by simp [hc])]

namespace LinkedBy

theorem list_eq (h : LinkedBy K S) (hq : K.ready q = true) : K.list q = pids S q := by
  have hs := h.represents.shape _ ((h.known q).mpr hq)
  rw [KState.list, if_pos hq, hs.items_eq, pids, h.represents.object]

theorem map_object (h : LinkedBy K S) (hq : K.ready q = true) :
    (S.items (.named q)).map S.object = (K.list q).map some := by
  rw [h.list_eq hq, pids, map_some_filterMap (h.object q hq)]

theorem mem_list (h : LinkedBy K S) (hq : K.ready q = true) :
    p ∈ K.list q ↔ ∃ l ∈ S.items (.named q), S.object l = some p := by
  rw [h.list_eq hq, pids, List.mem_filterMap]

theorem ready_of_mem (hm : p ∈ K.list q) : K.ready q = true := by
  by_contra hr
  rw [KState.list, if_neg hr] at hm
  cases hm

/-- Two links with one process on queues of one kind are the same link. -/
theorem link_unique (h : LinkedBy K S) (hs : Sparse K.list) (hq : K.ready q = true)
    (hr : K.ready r = true) (hk : q.isTable = r.isTable) {l k : LinkPtr}
    (hl : l ∈ S.items (.named q)) (hk' : k ∈ S.items (.named r)) (e : S.object l = S.object k) :
    l = k := by
  obtain ⟨p, hp⟩ := Option.ne_none_iff_exists'.mp (h.object q hq l hl)
  obtain rfl := hs.apart q r p hk ((h.mem_list hq).mpr ⟨l, hl, hp⟩)
    ((h.mem_list hr).mpr ⟨k, hk', e ▸ hp⟩)
  have hd : ((S.items (.named q)).map S.object).Nodup := by
    rw [h.map_object hq]
    exact (hs.nodup q).map (Option.some_injective _)
  exact List.inj_on_of_nodup_map hd hl hk' e

/-- There is always a free link: each process takes up at most two links. -/
theorem free_ne_nil (h : LinkedBy K S) (hs : Sparse K.list) : S.items .freeLinks ≠ [] := by
  intro hfree
  have placed : ∀ l, ∃ q, K.ready q = true ∧ l ∈ S.items (.named q) := by
    intro l
    obtain ⟨q, hk, hm⟩ := h.attached l
    cases q with
    | freeLinks => rw [hfree] at hm; cases hm
    | named q => exact ⟨q, (h.known q).mp hk, hm⟩
  choose f hf hm using placed
  have hinj : Function.Injective fun l => ((f l).isTable, S.object l) := by
    intro l k e
    obtain ⟨e₁, e₂⟩ := Prod.mk.inj e
    exact h.link_unique hs (hf l) (hf k) e₁ (hm l) (hm k) e₂
  have := Fintype.card_le_of_injective _ hinj
  simp only [Fintype.card_fin, Fintype.card_prod, Fintype.card_bool, Fintype.card_option] at this
  exact absurd this (by decide)

/-- A link of one queue is on no other. -/
theorem ne_of_mem (h : LinkedBy K S) {q r : QueuePtr KQueue} (hq : q ∈ S.known) (hr : r ∈ S.known)
    (hqr : q ≠ r) {l k : LinkPtr} (hl : l ∈ S.items q) (hk : k ∈ S.items r) : l ≠ k := fun e =>
  hqr (h.represents.same_queue hq hr hl (e ▸ hk))

theorem free_known (h : LinkedBy K S) : .freeLinks ∈ S.known := h.represents.free_known

end LinkedBy

/-- The lists after the first free link is placed between `xs` and `ys` on queue `q`. -/
def placedPool (S : Pool KQueue PcbPtr) (q : KQueue) (p : PcbPtr) (rest xs : List LinkPtr)
    (l : LinkPtr) (ys : List LinkPtr) : Pool KQueue PcbPtr :=
  ({ S.setItems .freeLinks rest with object := Function.update S.object l (some p) } :
    Pool KQueue PcbPtr).setItems (.named q) (xs ++ l :: ys)

theorem placedPool_free (S : Pool KQueue PcbPtr) (rest xs ys : List LinkPtr) :
    (placedPool S q p rest xs l ys).items .freeLinks = rest := by
  simp [placedPool, Pool.setItems]

theorem placedPool_self (S : Pool KQueue PcbPtr) (rest xs ys : List LinkPtr) :
    (placedPool S q p rest xs l ys).items (.named q) = xs ++ l :: ys := by
  simp [placedPool]

theorem placedPool_of_ne (S : Pool KQueue PcbPtr) (rest xs ys : List LinkPtr) (hr : r ≠ q) :
    (placedPool S q p rest xs l ys).items (.named r) = S.items (.named r) := by
  simp [placedPool, Pool.setItems, hr]

/-- Placing the first free link puts its process on one list. -/
theorem LinkedBy.place (h : LinkedBy K S) (hq : K.ready q = true) {rest xs ys : List LinkPtr}
    (hfree : S.items .freeLinks = l :: rest) (hL : S.items (.named q) = xs ++ ys) (K' : KState)
    (hrep : Represents K'.heap (placedPool S q p rest xs l ys)) (hready : K'.ready = K.ready)
    (hother : ∀ p', (q.isTable = true → p' ≠ p) → (K'.pcbs p').l = (K.pcbs p').l)
    (hself : q.isTable = true → (K'.pcbs p).l = some l)
    (hnew : q.isTable = true → ∀ r, r.isTable = true → p ∉ K.list r) :
    LinkedBy K' (placedPool S q p rest xs l ys) ∧
      K'.list = Function.update K.list q (xs.filterMap S.object ++ p :: ys.filterMap S.object) := by
  have hlfree : l ∈ S.items .freeLinks := by simp [hfree]
  have hne : ∀ r, K.ready r = true → ∀ k ∈ S.items (.named r), k ≠ l := fun r hr k hk =>
    h.ne_of_mem ((h.known r).mpr hr) h.free_known (by simp) hk hlfree
  have hobj : ∀ r, K.ready r = true → ∀ k ∈ S.items (.named r),
      (placedPool S q p rest xs l ys).object k = S.object k := fun r hr k hk =>
    Function.update_of_ne (hne r hr k hk) ..
  have hself' : (placedPool S q p rest xs l ys).object l = some p := Function.update_self ..
  have hmem : ∀ r, K.ready r = true → ∀ k, k ∈ (placedPool S q p rest xs l ys).items (.named r) →
      k ∈ S.items (.named r) ∨ r = q ∧ k = l := by
    intro r hr k hk
    by_cases e : r = q
    · subst e
      rw [placedPool_self, List.mem_append, List.mem_cons] at hk
      rw [hL, List.mem_append]
      grind
    · rw [placedPool_of_ne _ _ _ _ e] at hk
      exact .inl hk
  have linked : LinkedBy K' (placedPool S q p rest xs l ys) := by
    refine ⟨hrep, fun r => by rw [hready]; exact h.known r, fun r hr k hk => ?_, fun k => ?_,
      fun r hr k hk p' e => ?_⟩
    · rw [hready] at hr
      rcases hmem r hr k hk with hk | ⟨-, rfl⟩
      · rw [hobj r hr k hk]
        exact h.object r hr k hk
      · rw [hself']
        exact Option.some_ne_none p
    · obtain ⟨r, hr, hk⟩ := h.attached k
      cases r with
      | freeLinks =>
          rw [hfree, List.mem_cons] at hk
          rcases hk with rfl | hk
          · exact ⟨.named q, (h.known q).mpr hq, by simp [placedPool_self]⟩
          · exact ⟨.freeLinks, hr, by rwa [placedPool_free]⟩
      | named r =>
          refine ⟨.named r, hr, ?_⟩
          by_cases e : r = q
          · subst e
            rw [hL] at hk
            rw [placedPool_self]
            grind
          · rwa [placedPool_of_ne _ _ _ _ e]
    · rcases hmem r (ready_of_isTable hr) k hk with hk | ⟨rfl, rfl⟩
      · rw [hobj r (ready_of_isTable hr) k hk] at e
        rw [hother p' fun ht c => ?_, h.own r hr k hk p' e]
        exact hnew ht r hr ((h.mem_list (ready_of_isTable hr)).mpr ⟨k, hk, c ▸ e⟩)
      · rw [hself'] at e
        exact Option.some.inj e ▸ hself hr
  refine ⟨linked, funext fun r => ?_⟩
  by_cases e : r = q
  · subst e
    rw [Function.update_self, linked.list_eq (by rwa [hready]), pids, placedPool_self,
      List.filterMap_append, List.filterMap_cons_some hself']
    congr 1
    · exact List.filterMap_congr fun k hk => hobj r hq k (by simp [hL, hk])
    · exact congrArg _ (List.filterMap_congr fun k hk => hobj r hq k (by simp [hL, hk]))
  · rw [Function.update_of_ne e]
    by_cases hr : K.ready r = true
    · rw [linked.list_eq (by rwa [hready]), h.list_eq hr, pids, pids, placedPool_of_ne _ _ _ _ e]
      exact List.filterMap_congr fun k hk => hobj r hr k hk
    · rw [KState.list, KState.list, hready, if_neg hr, if_neg hr]

/-- The lists after link `l` of queue `q` is returned to the pool. -/
def removedPool (S : Pool KQueue PcbPtr) (q : KQueue) (l : LinkPtr) : Pool KQueue PcbPtr :=
  (S.setItems (.named q) ((S.items (.named q)).erase l)).setItems .freeLinks
    ((S.setItems (.named q) ((S.items (.named q)).erase l)).items .freeLinks ++ [l])

theorem removedPool_free (S : Pool KQueue PcbPtr) (q : KQueue) (l : LinkPtr) :
    (removedPool S q l).items .freeLinks = S.items .freeLinks ++ [l] := by
  simp [removedPool, Pool.setItems]

theorem removedPool_self (S : Pool KQueue PcbPtr) (q : KQueue) (l : LinkPtr) :
    (removedPool S q l).items (.named q) = (S.items (.named q)).erase l := by
  simp [removedPool, Pool.setItems]

theorem removedPool_of_ne (S : Pool KQueue PcbPtr) (hr : r ≠ q) :
    (removedPool S q l).items (.named r) = S.items (.named r) := by
  simp [removedPool, Pool.setItems, hr]

/-- Returning a link takes its process off one list. -/
theorem LinkedBy.unplace (h : LinkedBy K S) (hq : K.ready q = true) {xs ys : List LinkPtr}
    (hL : S.items (.named q) = xs ++ l :: ys) (hp : S.object l = some p) (K' : KState)
    (hrep : Represents K'.heap (removedPool S q l)) (hready : K'.ready = K.ready)
    (hother : ∀ p', (q.isTable = true → p' ≠ p) → (K'.pcbs p').l = (K.pcbs p').l) :
    LinkedBy K' (removedPool S q l) ∧
      K'.list = Function.update K.list q (xs.filterMap S.object ++ ys.filterMap S.object) := by
  have hk := (h.known q).mpr hq
  have hd : (xs ++ l :: ys).Nodup := hL ▸ (h.represents.shape _ hk).nodup
  have hlx : l ∉ xs := fun hm => (List.nodup_append.mp hd).2.2 l hm l (by simp) rfl
  have he : (S.items (.named q)).erase l = xs ++ ys := by
    rw [hL, List.erase_append_right _ hlx, List.erase_cons_head]
  have hlm : l ∈ S.items (.named q) := by simp [hL]
  have hmem : ∀ r, K.ready r = true → ∀ k, k ∈ (removedPool S q l).items (.named r) →
      k ∈ S.items (.named r) ∧ k ≠ l := by
    intro r hr k hkr
    by_cases e : r = q
    · subst e
      rw [removedPool_self] at hkr
      exact ⟨List.mem_of_mem_erase hkr, fun c => by
        rw [c] at hkr
        exact ((h.represents.shape _ hk).nodup.not_mem_erase) hkr⟩
    · rw [removedPool_of_ne _ e] at hkr
      exact ⟨hkr, h.ne_of_mem ((h.known r).mpr hr) hk (by simpa using e) hkr hlm⟩
  have linked : LinkedBy K' (removedPool S q l) := by
    refine ⟨hrep, fun r => by rw [hready]; exact h.known r, fun r hr k hkr => ?_, fun k => ?_,
      fun r hr k hkr p' e => ?_⟩
    · rw [hready] at hr
      exact h.object r hr k (hmem r hr k hkr).1
    · obtain ⟨r, hr, hkr⟩ := h.attached k
      cases r with
      | freeLinks => exact ⟨.freeLinks, hr, by simp [removedPool_free, hkr]⟩
      | named r =>
          by_cases e : r = q
          · subst e
            by_cases ekl : k = l
            · exact ⟨.freeLinks, h.free_known, by simp [removedPool_free, ekl]⟩
            · refine ⟨.named r, hr, ?_⟩
              rw [removedPool_self]
              exact (List.mem_erase_of_ne ekl).mpr hkr
          · exact ⟨.named r, hr, by rwa [removedPool_of_ne _ e]⟩
    · obtain ⟨hkr', hkl⟩ := hmem r (ready_of_isTable hr) k hkr
      rw [hother p' fun ht c => hkl ?_, h.own r hr k hkr' p' e]
      have e₁ := h.own r hr k hkr' p' e
      have e₂ := h.own q ht l hlm p hp
      rw [c, e₂] at e₁
      exact (Option.some.inj e₁).symm
  refine ⟨linked, funext fun r => ?_⟩
  by_cases e : r = q
  · subst e
    rw [Function.update_self, linked.list_eq (by rwa [hready]), pids, removedPool_self, he,
      List.filterMap_append]
    rfl
  · rw [Function.update_of_ne e]
    by_cases hr : K.ready r = true
    · rw [linked.list_eq (by rwa [hready]), h.list_eq hr, pids, pids, removedPool_of_ne _ e]
      rfl
    · rw [KState.list, KState.list, hready, if_neg hr, if_neg hr]

/-- Reordering the links of one queue reorders its processes. -/
theorem LinkedBy.reorder (h : LinkedBy K S) (hq : K.ready q = true) {L : List LinkPtr}
    (hL : ∀ k, k ∈ L ↔ k ∈ S.items (.named q)) (K' : KState)
    (hrep : Represents K'.heap (S.setItems (.named q) L)) (hready : K'.ready = K.ready)
    (hown : ∀ p', (K'.pcbs p').l = (K.pcbs p').l) :
    LinkedBy K' (S.setItems (.named q) L) ∧
      K'.list = Function.update K.list q (L.filterMap S.object) := by
  have hmem : ∀ r k, k ∈ (S.setItems (.named q) L).items (.named r) ↔
      k ∈ S.items (.named r) := by
    intro r k
    by_cases e : r = q
    · subst e
      rw [Pool.setItems_self, hL]
    · rw [Pool.setItems_of_ne _ (by simpa using e)]
  have linked : LinkedBy K' (S.setItems (.named q) L) := by
    refine ⟨hrep, fun r => by rw [hready]; exact h.known r, fun r hr k hk => ?_, fun k => ?_,
      fun r hr k hk p' e => ?_⟩
    · rw [hready] at hr
      exact h.object r hr k ((hmem r k).mp hk)
    · obtain ⟨r, hr, hk⟩ := h.attached k
      cases r with
      | freeLinks => exact ⟨.freeLinks, hr, by rwa [Pool.setItems_of_ne _ (by simp)]⟩
      | named r => exact ⟨.named r, hr, (hmem r k).mpr hk⟩
    · rw [hown]
      exact h.own r hr k ((hmem r k).mp hk) p' e
  refine ⟨linked, funext fun r => ?_⟩
  by_cases e : r = q
  · subst e
    rw [Function.update_self, linked.list_eq (by rwa [hready]), pids, Pool.setItems_self]
    rfl
  · rw [Function.update_of_ne e]
    by_cases hr : K.ready r = true
    · rw [linked.list_eq (by rwa [hready]), h.list_eq hr, pids, pids,
        Pool.setItems_of_ne _ (by simpa using e)]
      rfl
    · rw [KState.list, KState.list, hready, if_neg hr, if_neg hr]

/-- One list of a sparse family changes to processes that were on it or on none of its kind. -/
theorem Sparse.update {Q : KQueue → List PcbPtr} (hs : Sparse Q) {L : List PcbPtr} (hd : L.Nodup)
    (hL : ∀ p ∈ L, p ∈ Q q ∨ ∀ r, r.isTable = q.isTable → p ∉ Q r) :
    Sparse (Function.update Q q L) := by
  refine ⟨fun r => ?_, fun r t p hk hr ht => ?_⟩
  · by_cases e : r = q
    · subst e
      rwa [Function.update_self]
    · rw [Function.update_of_ne e]
      exact hs.nodup r
  · have other : ∀ r, r ≠ q → r.isTable = q.isTable → p ∈ Q r → p ∉ L := fun r e hk hm hp =>
      (hL p hp).elim (fun hq => e (hs.apart r q p hk hm hq)) fun hn => hn r hk hm
    by_cases er : r = q
    · subst er
      by_cases et : t = r
      · exact et.symm
      · rw [Function.update_self] at hr
        rw [Function.update_of_ne et] at ht
        exact absurd hr (other t et hk.symm ht)
    · rw [Function.update_of_ne er] at hr
      by_cases et : t = q
      · subst et
        rw [Function.update_self] at ht
        exact absurd ht (other r er hk hr)
      · rw [Function.update_of_ne et] at ht
        exact hs.apart r t p hk hr ht

end DlxOs.Kernel
