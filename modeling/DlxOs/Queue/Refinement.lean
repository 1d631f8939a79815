import DlxOs.Queue.Operations
import Mathlib.Algebra.BigOperators.Group.Finset.Basic
import Mathlib.Algebra.Order.BigOperators.Group.Finset
import Mathlib.Data.Fintype.Card

/-!
# The queues refine lists

One lemma for each routine relates its call to the list operation it performs.
They are assembled into the statement about every sequence of calls.
-/

namespace DlxOs.Queue

open DoublyLinked Transition

variable {ι β : Type*} [DecidableEq ι] {h : Heap ι β} {S : Pool ι β} {q : QueuePtr ι}
  {l : LinkPtr}

/-- Appending a floating link to a known queue. -/
theorem Tracks.append (t : Tracks h S (some l)) (hq : q ∈ S.known) :
    aQueueInsertLast h (some q) (some l) = (queueSuccess, h.link q (S.items q) l []) ∧
      Represents (h.link q (S.items q) l []) (S.setItems q (S.items q ++ [l])) :=
  ⟨aQueueInsertLast_link (t.shape q hq) (t.floating l rfl q hq),
    t.link hq (S.items q) [] (by simp)⟩

/-- Prepending a floating link to a known queue. -/
theorem Tracks.prepend (t : Tracks h S (some l)) (hq : q ∈ S.known) :
    aQueueInsertFirst h (some q) (some l) = (queueSuccess, h.link q [] l (S.items q)) ∧
      Represents (h.link q [] l (S.items q)) (S.setItems q (l :: S.items q)) :=
  ⟨aQueueInsertFirst_link (t.shape q hq) (t.floating l rfl q hq),
    t.link hq [] (S.items q) rfl⟩

/-- `AQueueInit` on a fresh queue. -/
theorem Represents.init (t : Represents h S) (hq : q ∉ S.known) :
    Represents (aQueueInit h (some q)).2 { S.setItems q [] with known := insert q S.known } := by
  refine ⟨by simp [t.free_known], fun r hr => ?_, fun k r _ e => ?_, fun k e => (by cases e),
    t.object⟩
  · by_cases hrq : r = q
    · subst hrq
      have hi : ({ S.setItems r [] with known := insert r S.known } : Pool ι β).items r = [] :=
        S.setItems_self r []
      rw [hi]
      exact ⟨by simp [aQueueInit, Heap.setFirst, Heap.setLast, Heap.setNitems],
        by simp [aQueueInit, Heap.setFirst, Heap.setLast, Heap.setNitems],
        by simp [aQueueInit, Heap.setFirst, Heap.setLast, Heap.setNitems], trivial, by simp,
        by simp⟩
    · have hi : ({ S.setItems q [] with known := insert q S.known } : Pool ι β).items r =
          S.items r := S.setItems_of_ne hrq []
      rw [hi]
      have hr' : r ∈ S.known := by simpa [hrq] using hr
      exact (t.shape r hr').frame
        (by simp [aQueueInit, Heap.setFirst, Heap.setLast, Heap.setNitems, hrq])
        (by simp [aQueueInit, Heap.setFirst, Heap.setLast, Heap.setNitems, hrq])
        (by simp [aQueueInit, Heap.setFirst, Heap.setLast, Heap.setNitems, hrq])
        fun k _ => ⟨rfl, rfl, rfl⟩
  · obtain ⟨hr, hm⟩ := t.placed k r (by simp) e
    have hrq : r ≠ q := fun c => hq (c ▸ hr)
    refine ⟨by simp [hr], ?_⟩
    have hi : ({ S.setItems q [] with known := insert q S.known } : Pool ι β).items r =
        S.items r := S.setItems_of_ne hrq []
    rwa [hi]

/-- `AQueueAllocLink` with an empty pool. -/
theorem Represents.alloc_empty (t : Represents h S) (he : S.items .freeLinks = [])
    (obj : Option β) : aQueueAllocLink h obj = (none, h) := by
  have hc := (t.shape _ t.free_known).isEmpty_iff.mpr he
  simp [aQueueAllocLink, hc]

/-- `AQueueAllocLink` detaches the head of `freeLinks`. -/
theorem Represents.alloc (t : Represents h S) {rest : List LinkPtr}
    (he : S.items .freeLinks = l :: rest) (obj : Option β) :
    ∃ h', aQueueAllocLink h obj = (some l, h') ∧ h'.queue l = none ∧
      Represents h'
        { S.setItems .freeLinks rest with object := Function.update S.object l obj } := by
  have hs := t.shape _ t.free_known
  rw [he] at hs
  have hne : aQueueEmpty h .freeLinks = false := by
    simp [Bool.eq_false_iff, hs.isEmpty_iff]
  have hfirst : aQueueFirst h .freeLinks = some l := by simp [aQueueFirst, hs.first]
  have hcut := cut_eq_unlink [] rest (by simpa using hs)
  have hun := (t.unlink t.free_known [] rest he).reset none none obj
  refine ⟨_, ?_, by simp, hun⟩
  rw [aQueueAllocLink, if_neg (by simp [hne]), hfirst]
  exact congrArg (fun g : Heap ι β => (some l,
    (((g.setNext (some l) none).setPrev (some l) none).setQueue l none).setObject l obj)) hcut

/-- `AQueueRemove` of a link on no queue. -/
theorem aQueueRemove_detached (hl : h.queue l = none) :
    aQueueRemove h (some (some l)) = (queueFail, some l, h) := by
  simp [aQueueRemove, hl]

/-- `AQueueRemove` takes a link off its queue and appends it to `freeLinks`. -/
theorem Represents.remove (t : Represents h S) (hq : q ∈ S.known) (hl : l ∈ S.items q)
    {S₁ : Pool ι β} (h₁ : S₁ = S.setItems q ((S.items q).erase l)) :
    ∃ h', aQueueRemove h (some (some l)) = (queueSuccess, none, h') ∧
      Represents h' (S₁.setItems .freeLinks (S₁.items .freeLinks ++ [l])) := by
  obtain ⟨xs, ys, hL⟩ := List.append_of_mem hl
  have hs := t.shape q hq
  rw [hL] at hs
  have hlx : l ∉ xs := fun hm => (List.nodup_append.mp hs.nodup).2.2 l hm l (by simp) rfl
  have he : (S.items q).erase l = xs ++ ys := by
    rw [hL, List.erase_append_right _ hlx, List.erase_cons_head]
  have hcut := cut_eq_unlink xs ys hs
  have hun : Tracks (h.unlink q xs ys) S₁ (some l) := by
    rw [h₁, he]
    exact t.unlink hq xs ys hL
  obtain ⟨hins, hrep⟩ := hun.append hun.free_known
  refine ⟨_, ?_, hrep⟩
  simp only [aQueueRemove, (t.mem_iff hq l).mp hl]
  refine Prod.ext rfl (Prod.ext rfl ?_)
  refine (congrArg (fun g : Heap ι β =>
    (aQueueInsertLast g (some .freeLinks) (some l)).2) hcut).trans ?_
  rw [hins]

/-- `AQueueInsertBefore` of a link on no queue. -/
theorem Represents.insertBefore (t : Represents h S) (hl : h.queue l = none) (hq : q ∈ S.known)
    {b : LinkPtr} (hb : b ∈ S.items q) :
    ∃ h', aQueueInsertBefore h (some q) (some b) (some l) = (queueSuccess, h') ∧
      Represents h' (S.setItems q (linkBefore b l (S.items q))) := by
  have hs := t.shape q hq
  obtain ⟨xs, ys, hL⟩ := List.append_of_mem hb
  have hm : l ∉ S.items q := t.not_mem_of_detached hl hq
  rw [hL] at hs hm
  have hbx : b ∉ xs := fun hm => (List.nodup_append.mp hs.nodup).2.2 b hm b (by simp) rfl
  refine ⟨_, aQueueInsertBefore_link hs hm, ?_⟩
  rw [hL, linkBefore_append hbx]
  exact (t.float hl).link hq xs (b :: ys) hL

/-- `AQueueInsertAfter` of a link on no queue. -/
theorem Represents.insertAfter (t : Represents h S) (hl : h.queue l = none) (hq : q ∈ S.known)
    {a : LinkPtr} (ha : a ∈ S.items q) :
    ∃ h', aQueueInsertAfter h (some q) (some a) (some l) = (queueSuccess, h') ∧
      Represents h' (S.setItems q (linkAfter a l (S.items q))) := by
  have hs := t.shape q hq
  obtain ⟨xs, ys, hL⟩ := List.append_of_mem ha
  have hm : l ∉ S.items q := t.not_mem_of_detached hl hq
  rw [hL] at hs hm
  have hax : a ∉ xs := fun hm => (List.nodup_append.mp hs.nodup).2.2 a hm a (by simp) rfl
  refine ⟨_, aQueueInsertAfter_link hs hm, ?_⟩
  have hlink := (t.float hl).link hq (xs ++ [a]) ys (by simp [hL])
  rw [hL, linkAfter_append hax, List.append_cons xs a (l :: ys)]
  exact hlink

/-- `AQueueMoveAfter` when it has to move. -/
theorem Represents.moveAfter (t : Represents h S) (hq : q ∈ S.known) {a : LinkPtr}
    (hm : ¬ MoveRefused (S.items q) (some a) l) (ha : a ≠ l) :
    ∃ h', aQueueMoveAfter h (some q) (some a) (some l) = (queueSuccess, h') ∧
      Represents h' (S.setItems q (linkAfter a l ((S.items q).erase l))) := by
  simp only [MoveRefused, Option.some.injEq, exists_eq_left', not_or, not_not, ne_eq, ha,
    not_false_eq_true, true_and] at hm
  obtain ⟨hl, haL, hlast, -⟩ := hm
  obtain ⟨xs, ys, hL⟩ := List.append_of_mem hl
  have hs := t.shape q hq
  rw [hL] at hs hlast haL
  have hy : ys ≠ [] := fun c => hlast (by simp [c])
  have hlx : l ∉ xs := fun hm => (List.nodup_append.mp hs.nodup).2.2 l hm l (by simp) rfl
  have he : (S.items q).erase l = xs ++ ys := by
    rw [hL, List.erase_append_right _ hlx, List.erase_cons_head]
  obtain ⟨us, vs, hE⟩ : ∃ us vs, xs ++ ys = us ++ a :: vs := by
    refine List.append_of_mem ?_
    simpa [ha] using haL
  have hun := t.unlink hq xs ys hL
  have hnd : (us ++ a :: vs).Nodup := hE ▸ (List.nodup_cons.mp (List.nodup_middle.mp hs.nodup)).2
  have hau : a ∉ us := fun hm => (List.nodup_append.mp hnd).2.2 a hm a (by simp) rfl
  refine ⟨_, aQueueMoveAfter_link hs hy hE, ?_⟩
  have hlink := hun.link hq (us ++ [a]) vs (by simp [hE])
  rw [he, hE, linkAfter_append hau, List.append_cons us a (l :: vs)]
  simpa [Pool.setItems] using hlink

/-- `AQueueMoveAfter` succeeds without a move. -/
theorem Represents.moveAfter_stay (t : Represents h S) (hq : q ∈ S.known) {a : Option LinkPtr}
    (hm : ¬ MoveRefused (S.items q) a l) (ha : a = none ∨ a = some l) :
    aQueueMoveAfter h (some q) a (some l) = (queueSuccess, h) := by
  have hs := t.shape q hq
  rcases ha with rfl | rfl
  · have hL : S.items q = [l] := by
      simp only [MoveRefused, not_or, not_and, not_not, true_imp_iff] at hm
      exact hm.2.2.2
    have hl : h.queue l = some q := (t.mem_iff hq l).mp (by simp [hL])
    rw [hL] at hs
    simp [aQueueMoveAfter, hl, aQueueLength, aQueueFirst, aQueueLast, hs.nitems, hs.first, hs.last]
  · have hl : h.queue l = some q := (t.mem_iff hq l).mp (by
      simp only [MoveRefused, not_or, not_not] at hm
      exact hm.1)
    simp [aQueueMoveAfter, hl]

/-- `AQueueMoveAfter` changes nothing when it refuses. -/
theorem Represents.moveAfter_refused (t : Represents h S) (hq : q ∈ S.known) {a : Option LinkPtr}
    (hm : MoveRefused (S.items q) a l) :
    aQueueMoveAfter h (some q) a (some l) = (queueFail, h) := by
  have hs := t.shape q hq
  by_cases hl : h.queue l = some q
  · cases a with
    | none =>
        have hne : S.items q ≠ [l] := by
          simpa [MoveRefused, t.mem_iff hq, hl] using hm
        have hlen : aQueueLength h q ≠ 1 := by
          rw [aQueueLength, hs.nitems]
          intro c
          obtain ⟨x, hx⟩ := List.length_eq_one_iff.mp (by exact_mod_cast c)
          have : l ∈ S.items q := (t.mem_iff hq l).mpr hl
          rw [hx] at this hne
          exact hne (by simp_all)
        simp [aQueueMoveAfter, hl, hlen]
    | some a =>
        have hcase : h.queue a ≠ some q ∨ a ≠ l ∧ h.last q = some l := by
          simpa [MoveRefused, t.mem_iff hq, hl, hs.last] using hm
        rcases hcase with ha | ⟨hal, hlast⟩
        · simp [aQueueMoveAfter, hl, ha]
        · simp [aQueueMoveAfter, hl, hal, hlast]
  · simp [aQueueMoveAfter, hl]

end DlxOs.Queue
