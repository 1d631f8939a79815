import DlxOs.Queue.Heap
import Mathlib.Data.Finset.Basic

/-!
# Lists of links as the meaning of the queues

The abstract state gives every initialised queue a list of links. `Tracks` says
that the pointer fields of a memory hold exactly these lists. The floating link
`held`, if there is one, is on no list although its fields are not reset yet;
such states occur between taking a link off one queue and putting it on another.
-/

namespace DlxOs.Queue

open DoublyLinked

variable {ι β : Type*} [DecidableEq ι]

/-- The initialised queues, their lists, and the object stored in each link. -/
structure Pool (ι β : Type*) where
  known : Finset (QueuePtr ι)
  items : QueuePtr ι → List LinkPtr
  object : LinkPtr → Option β

namespace Pool

def setItems (S : Pool ι β) (q : QueuePtr ι) (L : List LinkPtr) : Pool ι β :=
  { S with items := Function.update S.items q L }

@[simp] theorem setItems_known (S : Pool ι β) (q : QueuePtr ι) (L : List LinkPtr) :
    (S.setItems q L).known = S.known := rfl

@[simp] theorem setItems_object (S : Pool ι β) (q : QueuePtr ι) (L : List LinkPtr) :
    (S.setItems q L).object = S.object := rfl

@[simp] theorem setItems_self (S : Pool ι β) (q : QueuePtr ι) (L : List LinkPtr) :
    (S.setItems q L).items q = L := Function.update_self ..

theorem setItems_of_ne (S : Pool ι β) {q r : QueuePtr ι} (h : r ≠ q) (L : List LinkPtr) :
    (S.setItems q L).items r = S.items r := Function.update_of_ne h ..

theorem setItems_items (S : Pool ι β) (q : QueuePtr ι) : S.setItems q (S.items q) = S := by
  simp [setItems]

end Pool

/-- The pointer fields of queue `q` and of the links `L` spell out the list `L`. -/
structure Shape (h : Heap ι β) (q : QueuePtr ι) (L : List LinkPtr) : Prop where
  first : h.first q = L.head?
  last : h.last q = L.getLast?
  nitems : h.nitems q = L.length
  chain : Segment h.next h.prev none L none
  nodup : L.Nodup
  tagged : ∀ l ∈ L, h.queue l = some q

/-- The memory `h` holds the lists of `S`, up to the floating link `held`. -/
structure Tracks (h : Heap ι β) (S : Pool ι β) (held : Option LinkPtr) : Prop where
  free_known : .freeLinks ∈ S.known
  shape : ∀ q ∈ S.known, Shape h q (S.items q)
  placed : ∀ l q, held ≠ some l → h.queue l = some q → q ∈ S.known ∧ l ∈ S.items q
  floating : ∀ l, held = some l → ∀ q ∈ S.known, l ∉ S.items q
  object : S.object = h.object

/-- The memory holds exactly the lists of `S`. -/
abbrev Represents (h : Heap ι β) (S : Pool ι β) : Prop := Tracks h S none

variable {h : Heap ι β} {S : Pool ι β} {held : Option LinkPtr}

omit [DecidableEq ι] in
theorem Shape.isEmpty_iff {q : QueuePtr ι} {L : List LinkPtr} (s : Shape h q L) :
    aQueueEmpty h q = true ↔ L = [] := by
  simp [aQueueEmpty, aQueueLength, s.nitems]

omit [DecidableEq ι] in
/-- A link is on at most one list. -/
theorem Tracks.same_queue (t : Tracks h S held) {q r : QueuePtr ι} (hq : q ∈ S.known)
    (hr : r ∈ S.known) {l : LinkPtr} (h₁ : l ∈ S.items q) (h₂ : l ∈ S.items r) : q = r :=
  Option.some.inj (((t.shape q hq).tagged l h₁).symm.trans ((t.shape r hr).tagged l h₂))

omit [DecidableEq ι] in
/-- The queue field decides which list a link is on. -/
theorem Represents.mem_iff (t : Represents h S) {q : QueuePtr ι} (hq : q ∈ S.known) (l : LinkPtr) :
    l ∈ S.items q ↔ h.queue l = some q :=
  ⟨(t.shape q hq).tagged l, fun e => (t.placed l q (by simp) e).2⟩

omit [DecidableEq ι] in
/-- A link with a null queue field is on no list. -/
theorem Represents.not_mem_of_detached (t : Represents h S) {l : LinkPtr} (hl : h.queue l = none)
    {q : QueuePtr ι} (hq : q ∈ S.known) : l ∉ S.items q := fun hm => by
  rw [(t.mem_iff hq l).mp hm] at hl
  cases hl

omit [DecidableEq ι] in
/-- A detached link may be regarded as the floating one. -/
theorem Represents.float (t : Represents h S) {l : LinkPtr} (hl : h.queue l = none) :
    Tracks h S (some l) where
  free_known := t.free_known
  shape := t.shape
  placed k q _ e := t.placed k q (by simp) e
  floating k e q hq := by
    cases e
    exact t.not_mem_of_detached hl hq
  object := t.object

namespace Heap

/-- The memory after `l` is put between `xs` and `ys` on queue `q`. -/
def link (h : Heap ι β) (q : QueuePtr ι) (xs : List LinkPtr) (l : LinkPtr)
    (ys : List LinkPtr) : Heap ι β where
  next := assign (Function.update h.next l ys.head?) xs.getLast? (some l)
  prev := assign (Function.update h.prev l xs.getLast?) ys.head? (some l)
  queue := Function.update h.queue l (some q)
  object := h.object
  first := Function.update h.first q (xs ++ l :: ys).head?
  last := Function.update h.last q (xs ++ l :: ys).getLast?
  nitems := Function.update h.nitems q (xs ++ l :: ys).length

/-- The memory after the link between `xs` and `ys` is cut out of queue `q`. -/
def unlink (h : Heap ι β) (q : QueuePtr ι) (xs ys : List LinkPtr) : Heap ι β where
  next := assign h.next xs.getLast? ys.head?
  prev := assign h.prev ys.head? xs.getLast?
  queue := h.queue
  object := h.object
  first := Function.update h.first q (xs ++ ys).head?
  last := Function.update h.last q (xs ++ ys).getLast?
  nitems := Function.update h.nitems q (xs ++ ys).length

end Heap

omit [DecidableEq ι] in
/-- A queue that shares no link with the changed one keeps its shape. -/
theorem Shape.frame {h h' : Heap ι β} {q : QueuePtr ι} {L : List LinkPtr} (s : Shape h q L)
    (hf : h'.first q = h.first q) (hl : h'.last q = h.last q) (hn : h'.nitems q = h.nitems q)
    (hlinks : ∀ l ∈ L, h'.next l = h.next l ∧ h'.prev l = h.prev l ∧ h'.queue l = h.queue l) :
    Shape h' q L where
  first := hf.trans s.first
  last := hl.trans s.last
  nitems := hn.trans s.nitems
  chain := s.chain.congr (fun l hm => (hlinks l hm).1) fun l hm => (hlinks l hm).2.1
  nodup := s.nodup
  tagged l hm := (hlinks l hm).2.2.trans (s.tagged l hm)

/-- Linking a new link into a queue spells out the longer list. -/
theorem Shape.link {q : QueuePtr ι} {xs ys : List LinkPtr} (s : Shape h q (xs ++ ys))
    {l : LinkPtr} (hl : l ∉ xs ++ ys) : Shape (h.link q xs l ys) q (xs ++ l :: ys) := by
  have hd : (xs ++ l :: ys).Nodup := List.nodup_middle.mpr (List.nodup_cons.mpr ⟨hl, s.nodup⟩)
  refine ⟨by simp [Heap.link], by simp [Heap.link], by simp [Heap.link], s.chain.link hd, hd,
    fun k hk => ?_⟩
  by_cases hkl : k = l
  · subst hkl
    simp [Heap.link]
  · have hm : k ∈ xs ++ ys := by simpa [hkl] using hk
    simpa [Heap.link, Function.update_of_ne hkl] using s.tagged k hm

/-- Linking the floating link gives it a place on the list of `q`. -/
theorem Tracks.link {l : LinkPtr} (t : Tracks h S (some l)) {q : QueuePtr ι} (hq : q ∈ S.known)
    (xs ys : List LinkPtr) (hL : S.items q = xs ++ ys) :
    Represents (h.link q xs l ys) (S.setItems q (xs ++ l :: ys)) := by
  have hfree : ∀ r ∈ S.known, l ∉ S.items r := t.floating l rfl
  have hl : l ∉ xs ++ ys := hL ▸ hfree q hq
  have hs := t.shape q hq
  rw [hL] at hs
  refine ⟨t.free_known, fun r hr => ?_, fun k r hk e => ?_, fun k e => (by cases e), t.object⟩
  · by_cases hrq : r = q
    · subst hrq
      rw [Pool.setItems_self]
      exact hs.link hl
    · rw [Pool.setItems_of_ne S hrq]
      have hdis : ∀ k ∈ S.items r, k ∉ xs ++ ys := fun k h₁ h₂ =>
        hrq (t.same_queue hr hq h₁ (hL ▸ h₂))
      refine (t.shape r hr).frame (by simp [Heap.link, hrq]) (by simp [Heap.link, hrq])
        (by simp [Heap.link, hrq]) fun k hk => ?_
      have hkl : k ≠ l := fun e => hfree r hr (e ▸ hk)
      refine ⟨?_, ?_, by simp [Heap.link, hkl]⟩
      · exact (assign_of_ne fun e => hdis k hk (by simp [List.mem_of_mem_getLast? e])).trans
          (Function.update_of_ne hkl ..)
      · exact (assign_of_ne fun e => hdis k hk (by simp [List.mem_of_mem_head? e])).trans
          (Function.update_of_ne hkl ..)
  · by_cases hkl : k = l
    · subst hkl
      have hrq : r = q := by simpa [Heap.link, eq_comm] using e
      subst hrq
      exact ⟨hq, by simp⟩
    · have e' : h.queue k = some r := by simpa [Heap.link, hkl] using e
      obtain ⟨hr, hm⟩ := t.placed k r (by simpa [eq_comm] using hkl) e'
      refine ⟨hr, ?_⟩
      by_cases hrq : r = q
      · subst hrq
        rw [hL] at hm
        simpa [hkl] using hm
      · rwa [Pool.setItems_of_ne S hrq]

/-- Unlinking a link makes it the floating one. -/
theorem Represents.unlink (t : Represents h S) {q : QueuePtr ι} (hq : q ∈ S.known)
    (xs ys : List LinkPtr) {l : LinkPtr} (hL : S.items q = xs ++ l :: ys) :
    Tracks (h.unlink q xs ys) (S.setItems q (xs ++ ys)) (some l) := by
  have hs := t.shape q hq
  rw [hL] at hs
  have hd : (l :: (xs ++ ys)).Nodup := List.nodup_middle.mp hs.nodup
  obtain ⟨hl, hd'⟩ := List.nodup_cons.mp hd
  refine ⟨t.free_known, fun r hr => ?_, fun k r hk e => ?_, fun k e r hr => ?_, t.object⟩
  · by_cases hrq : r = q
    · subst hrq
      rw [Pool.setItems_self]
      exact ⟨by simp [Heap.unlink], by simp [Heap.unlink], by simp [Heap.unlink],
        hs.chain.unlink hs.nodup, hd', fun k hk => hs.tagged k (by
          rcases List.mem_append.mp hk with hx | hy <;> simp [*])⟩
    · rw [Pool.setItems_of_ne S hrq]
      have hdis : ∀ k ∈ S.items r, k ∉ xs ++ ys := fun k h₁ h₂ => by
        refine hrq (t.same_queue hr hq h₁ ?_)
        rw [hL]
        rcases List.mem_append.mp h₂ with hx | hy <;> simp [*]
      refine (t.shape r hr).frame (by simp [Heap.unlink, hrq]) (by simp [Heap.unlink, hrq])
        (by simp [Heap.unlink, hrq]) fun k hk => ⟨?_, ?_, rfl⟩
      · exact assign_of_ne fun e => hdis k hk (by simp [List.mem_of_mem_getLast? e])
      · exact assign_of_ne fun e => hdis k hk (by simp [List.mem_of_mem_head? e])
  · obtain ⟨hr, hm⟩ := t.placed k r (by simp) e
    refine ⟨hr, ?_⟩
    by_cases hrq : r = q
    · subst hrq
      rw [hL] at hm
      have hkl : k ≠ l := fun c => hk (c ▸ rfl)
      simpa [hkl] using hm
    · rwa [Pool.setItems_of_ne S hrq]
  · cases e
    by_cases hrq : r = q
    · subst hrq
      rwa [Pool.setItems_self]
    · rw [Pool.setItems_of_ne S hrq]
      exact fun hm => hrq (t.same_queue hr hq hm (by simp [hL]))

omit [DecidableEq ι] in
/-- Resetting the fields of the floating link ends its floating. -/
theorem Tracks.reset {l : LinkPtr} (t : Tracks h S (some l)) (n p : Option LinkPtr)
    (obj : Option β) :
    Represents
      { h with next := Function.update h.next l n, prev := Function.update h.prev l p,
               queue := Function.update h.queue l none,
               object := Function.update h.object l obj }
      { S with object := Function.update S.object l obj } := by
  have hfree : ∀ r ∈ S.known, l ∉ S.items r := t.floating l rfl
  refine ⟨t.free_known, fun r hr => ?_, fun k r hk e => ?_, fun k e => (by cases e), ?_⟩
  · refine (t.shape r hr).frame rfl rfl rfl fun k hk => ?_
    have hkl : k ≠ l := fun e => hfree r hr (e ▸ hk)
    simp [Function.update_of_ne hkl]
  · by_cases hkl : k = l
    · simp [hkl] at e
    · exact t.placed k r (by simpa [eq_comm] using hkl) (by simpa [hkl] using e)
  · simp [t.object]

end DlxOs.Queue
