import DlxOs.Queue.Pool
import Mathlib.Data.Nat.Cast.Basic

/-!
# The pointer assignments compute links and unlinks

Each routine of `queue.c` is shown here to perform, on a queue whose fields
spell out a list, the one insertion or removal it is meant for.
-/

namespace DlxOs.Queue

open DoublyLinked

variable {ι β : Type*} [DecidableEq ι] {h g : Heap ι β} {q : QueuePtr ι}
  {xs ys : List LinkPtr} {l a : LinkPtr}

theorem Heap.setFirst_self (g : Heap ι β) (q : QueuePtr ι) : g.setFirst q (g.first q) = g := by
  simp [Heap.setFirst]

theorem Heap.setLast_self (g : Heap ι β) (q : QueuePtr ι) : g.setLast q (g.last q) = g := by
  simp [Heap.setLast]

theorem head?_ne_of_nodup (hd : (xs ++ a :: ys).Nodup) (hx : xs ≠ []) :
    (xs ++ a :: ys).head? ≠ some a := by
  rw [List.head?_append_of_ne_nil _ hx]
  exact fun e => (List.nodup_append.mp hd).2.2 a (List.mem_of_mem_head? e) a (by simp) rfl

theorem getLast?_ne_of_nodup (hd : (xs ++ a :: ys).Nodup) (hy : ys ≠ []) :
    (xs ++ a :: ys).getLast? ≠ some a := by
  have e : (xs ++ a :: ys).getLast? = ys.getLast? := by
    rw [List.append_cons, List.getLast?_append_of_ne_nil _ hy]
  rw [e]
  exact fun c => (List.nodup_cons.mp (List.nodup_append.mp hd).2.1).1 (List.mem_of_mem_getLast? c)

/-- `if (q->first == l) q->first = l->next;` while `l` is being cut out. -/
theorem setFirst_cut {v : Option LinkPtr} (hv : v = (xs ++ a :: ys).head?)
    (hd : (xs ++ a :: ys).Nodup) (hg : g.first q = v) :
    (if v = some a then g.setFirst q ys.head? else g) = g.setFirst q (xs ++ ys).head? := by
  by_cases hx : xs = []
  · subst hx
    simp [hv]
  · rw [if_neg (hv ▸ head?_ne_of_nodup hd hx), List.head?_append_of_ne_nil _ hx,
      ← @List.head?_append_of_ne_nil _ _ (a :: ys) hx, ← hv, ← hg, Heap.setFirst_self]

/-- `if (q->last == l) q->last = l->prev;` while `l` is being cut out. -/
theorem setLast_cut {v : Option LinkPtr} (hv : v = (xs ++ a :: ys).getLast?)
    (hd : (xs ++ a :: ys).Nodup) (hg : g.last q = v) :
    (if v = some a then g.setLast q xs.getLast? else g) = g.setLast q (xs ++ ys).getLast? := by
  by_cases hy : ys = []
  · subst hy
    simp [hv]
  · have e : (xs ++ a :: ys).getLast? = (xs ++ ys).getLast? := by
      rw [List.append_cons, List.getLast?_append_of_ne_nil _ hy,
        List.getLast?_append_of_ne_nil _ hy]
    rw [if_neg (hv ▸ getLast?_ne_of_nodup hd hy), ← e, ← hv, ← hg, Heap.setLast_self]

/-- `if (q->first == before) q->first = l;` -/
theorem setFirst_before {v : Option LinkPtr} (hv : v = (xs ++ a :: ys).head?)
    (hd : (xs ++ a :: ys).Nodup) (hg : g.first q = v) :
    (if v = some a then g.setFirst q (some l) else g) =
      g.setFirst q (xs ++ l :: a :: ys).head? := by
  by_cases hx : xs = []
  · subst hx
    simp [hv]
  · rw [if_neg (hv ▸ head?_ne_of_nodup hd hx), List.head?_append_of_ne_nil _ hx,
      ← @List.head?_append_of_ne_nil _ _ (a :: ys) hx, ← hv, ← hg, Heap.setFirst_self]

/-- `if (q->last == after) q->last = l;` -/
theorem setLast_after {v : Option LinkPtr} (hv : v = (xs ++ a :: ys).getLast?)
    (hd : (xs ++ a :: ys).Nodup) (hg : g.last q = v) :
    (if v = some a then g.setLast q (some l) else g) =
      g.setLast q (xs ++ a :: l :: ys).getLast? := by
  by_cases hy : ys = []
  · subst hy
    simp [hv]
  · have e : (xs ++ a :: ys).getLast? = (xs ++ a :: l :: ys).getLast? := by
      have e₁ : xs ++ a :: ys = (xs ++ [a]) ++ ys := by simp
      have e₂ : xs ++ a :: l :: ys = (xs ++ [a, l]) ++ ys := by simp
      rw [e₁, e₂, List.getLast?_append_of_ne_nil _ hy, List.getLast?_append_of_ne_nil _ hy]
    rw [if_neg (hv ▸ getLast?_ne_of_nodup hd hy), ← e, ← hv, ← hg, Heap.setLast_self]

/-- Inserting into an empty queue. -/
theorem aQueueInsertAfter_empty (s : Shape h q []) (l : LinkPtr) :
    aQueueInsertAfter h (some q) none (some l) = (queueSuccess, h.link q [] l []) := by
  have he : aQueueEmpty h q = true := s.isEmpty_iff.mpr rfl
  simp [aQueueInsertAfter, s.first, s.last, he, Heap.link, Heap.setNext, Heap.setPrev,
    Heap.setQueue, Heap.setFirst, Heap.setLast, Heap.setNitems, assign_some]

/-- Inserting behind a link of the queue. -/
theorem aQueueInsertAfter_link (s : Shape h q (xs ++ a :: ys)) (hl : l ∉ xs ++ a :: ys) :
    aQueueInsertAfter h (some q) (some a) (some l) =
      (queueSuccess, h.link q (xs ++ [a]) l ys) := by
  have ha : h.queue a = some q := s.tagged a (by simp)
  have hla : l ≠ a := fun e => hl (by simp [e])
  have hnext : Function.update (Function.update h.next l (h.next a)) a (some l) l = ys.head? := by
    rw [Function.update_of_ne hla, Function.update_self, s.chain.nxt_eq]
  simp only [aQueueInsertAfter, ha, ne_eq, not_true_eq_false, decide_false, Bool.false_eq_true,
    if_false, Heap.setQueue, Heap.setPrev, Heap.setNext, assign_some, Option.bind_some, hnext,
    Prod.mk.injEq, true_and]
  rw [setLast_after s.last s.nodup ?_]
  ext1
  · simp [Heap.link, Heap.setNitems, Heap.setLast, assign_some, s.chain.nxt_eq]
  · simp [Heap.link, Heap.setNitems, Heap.setLast]
  · rfl
  · rfl
  · have hfirst : h.first q = (xs ++ [a] ++ l :: ys).head? := by simp [s.first]
    simp only [Heap.link, Heap.setNitems, Heap.setLast]
    rw [← hfirst, Function.update_eq_self]
  · simp [Heap.link, Heap.setNitems, Heap.setLast]
  · have hn : h.nitems q + 1 = ((xs ++ [a] ++ l :: ys).length : Int) := by
      rw [s.nitems]
      simp
      omega
    exact congrArg (Function.update h.nitems q) hn
  · rfl

/-- Inserting before a link of the queue. -/
theorem aQueueInsertBefore_link (s : Shape h q (xs ++ a :: ys)) (hl : l ∉ xs ++ a :: ys) :
    aQueueInsertBefore h (some q) (some a) (some l) =
      (queueSuccess, h.link q xs l (a :: ys)) := by
  have ha : h.queue a = some q := s.tagged a (by simp)
  have hla : l ≠ a := fun e => hl (by simp [e])
  have hprev : Function.update (Function.update h.prev l (h.prev a)) a (some l) l =
      xs.getLast? := by
    rw [Function.update_of_ne hla, Function.update_self, s.chain.prv_eq]
  simp only [aQueueInsertBefore, ha, ne_eq, not_true_eq_false, decide_false, Bool.false_eq_true,
    if_false, Heap.setQueue, Heap.setPrev, Heap.setNext, assign_some, Option.bind_some, hprev,
    Prod.mk.injEq, true_and]
  rw [setFirst_before s.first s.nodup ?_]
  ext1
  · simp [Heap.link, Heap.setNitems, Heap.setFirst]
  · simp [Heap.link, Heap.setNitems, Heap.setFirst, assign_some, s.chain.prv_eq]
  · rfl
  · rfl
  · simp [Heap.link, Heap.setNitems, Heap.setFirst]
  · have hlast : h.last q = (xs ++ l :: a :: ys).getLast? := by
      rw [s.last, List.getLast?_append_of_ne_nil _ (by simp),
        List.getLast?_append_of_ne_nil _ (by simp), List.getLast?_cons_cons]
    simp only [Heap.link, Heap.setNitems, Heap.setFirst]
    rw [← hlast, Function.update_eq_self]
  · have hn : h.nitems q + 1 = ((xs ++ l :: a :: ys).length : Int) := by
      rw [s.nitems]
      simp
      omega
    exact congrArg (Function.update h.nitems q) hn
  · rfl

/-- Inserting into an empty queue from the other side. -/
theorem aQueueInsertBefore_empty (s : Shape h q []) (l : LinkPtr) :
    aQueueInsertBefore h (some q) none (some l) = (queueSuccess, h.link q [] l []) := by
  have he : aQueueEmpty h q = true := s.isEmpty_iff.mpr rfl
  simp [aQueueInsertBefore, s.first, s.last, he, aQueueFirst, aQueueLast, Heap.link, Heap.setNext,
    Heap.setPrev, Heap.setQueue, Heap.setFirst, Heap.setLast, Heap.setNitems, assign_some]

/-- `AQueueInsertLast` appends. -/
theorem aQueueInsertLast_link {L : List LinkPtr} (s : Shape h q L) (hl : l ∉ L) :
    aQueueInsertLast h (some q) (some l) = (queueSuccess, h.link q L l []) := by
  rcases List.eq_nil_or_concat L with rfl | ⟨init, a, rfl⟩
  · simpa [aQueueInsertLast, aQueueLast, s.last] using aQueueInsertAfter_empty s l
  · rw [List.concat_eq_append] at *
    have hins := @aQueueInsertAfter_link _ _ _ h q init [] l a s hl
    simpa [aQueueInsertLast, aQueueLast, s.last] using hins

/-- `AQueueInsertFirst` prepends. -/
theorem aQueueInsertFirst_link {L : List LinkPtr} (s : Shape h q L) (hl : l ∉ L) :
    aQueueInsertFirst h (some q) (some l) = (queueSuccess, h.link q [] l L) := by
  cases L with
  | nil => simpa [aQueueInsertFirst, aQueueFirst, s.first] using aQueueInsertBefore_empty s l
  | cons a rest =>
      have hins := @aQueueInsertBefore_link _ _ _ h q [] rest l a s hl
      simpa [aQueueInsertFirst, aQueueFirst, s.first] using hins

/-- The assignments that take a link out, as `AQueueRemove` and `AQueueAllocLink` make them. -/
theorem cut_eq_unlink (xs ys : List LinkPtr) (s : Shape h q (xs ++ l :: ys)) :
    let h₁ := if h.first q = some l then h.setFirst q (h.next l) else h
    let h₂ := if h₁.last q = some l then h₁.setLast q (h₁.prev l) else h₁
    let h₃ := h₂.setNext (h₂.prev l) (h₂.next l)
    let h₄ := h₃.setPrev (h₃.next l) (h₃.prev l)
    h₄.setNitems q (h₄.nitems q - 1) = h.unlink q xs ys := by
  have hn : h.next l = ys.head? := s.chain.nxt_eq
  have hp : h.prev l = xs.getLast? := s.chain.prv_eq
  have hd := s.nodup
  have hlx : xs.getLast? ≠ some l := fun e =>
    (List.nodup_append.mp hd).2.2 l (List.mem_of_mem_getLast? e) l (by simp) rfl
  have hly : ys.head? ≠ some l := fun e =>
    (List.nodup_cons.mp (List.nodup_append.mp hd).2.1).1 (List.mem_of_mem_head? e)
  have e₁ : (if h.first q = some l then h.setFirst q (h.next l) else h) =
      h.setFirst q (xs ++ ys).head? := by
    rw [hn]
    exact setFirst_cut s.first hd rfl
  have e₂ : (if (h.setFirst q (xs ++ ys).head?).last q = some l then
        (h.setFirst q (xs ++ ys).head?).setLast q xs.getLast?
      else h.setFirst q (xs ++ ys).head?) =
      (h.setFirst q (xs ++ ys).head?).setLast q (xs ++ ys).getLast? :=
    setLast_cut s.last hd rfl
  have hp₁ : (h.setFirst q (xs ++ ys).head?).prev l = xs.getLast? := hp
  simp only [e₁, hp₁, e₂]
  simp only [Heap.setFirst, Heap.setLast, Heap.setNext, Heap.setPrev, Heap.setNitems, hn, hp,
    assign_of_ne hlx, Heap.unlink, Heap.mk.injEq, true_and]
  simp [s.nitems]
  congr 1
  omega

/-- `AQueueMoveAfter` is a removal followed by an insertion. -/
theorem aQueueMoveAfter_link {us vs : List LinkPtr} (s : Shape h q (xs ++ l :: ys))
    (hy : ys ≠ []) (e : xs ++ ys = us ++ a :: vs) :
    aQueueMoveAfter h (some q) (some a) (some l) =
      (queueSuccess, (h.unlink q xs ys).link q (us ++ [a]) l vs) := by
  have hn : h.next l = ys.head? := s.chain.nxt_eq
  have hp : h.prev l = xs.getLast? := s.chain.prv_eq
  have hd : (l :: (xs ++ ys)).Nodup := List.nodup_middle.mp s.nodup
  have ham : a ∈ xs ++ ys := by simp [e]
  have hal : a ≠ l := fun c => (List.nodup_cons.mp hd).1 (c ▸ ham)
  have ha : h.queue a = some q := s.tagged a (by
    rcases List.mem_append.mp ham with hx | hy <;> simp [*])
  have hly : ys.head? ≠ some l := fun c =>
    (List.nodup_cons.mp hd).1 (by simp [List.mem_of_mem_head? c])
  have hlast : h.last q = (us ++ a :: vs).getLast? := by
    rw [s.last, ← e, List.append_cons, List.getLast?_append_of_ne_nil _ hy,
      List.getLast?_append_of_ne_nil _ hy]
  have hchain := s.chain.unlink s.nodup
  rw [e] at hchain
  have hna : assign h.next xs.getLast? ys.head? a = vs.head? := hchain.nxt_eq
  have e₁ : (if h.first q = some l then h.setFirst q ys.head? else h) =
      h.setFirst q (xs ++ ys).head? := setFirst_cut s.first s.nodup rfl
  have e₂ : (if h.last q = some a then (h.setFirst q (xs ++ ys).head?).setLast q (some l)
      else h.setFirst q (xs ++ ys).head?) =
      (h.setFirst q (xs ++ ys).head?).setLast q (us ++ a :: l :: vs).getLast? :=
    setLast_after hlast (e ▸ (List.nodup_cons.mp hd).2) rfl
  have hl₁ : (h.setFirst q (xs ++ ys).head?).last q = h.last q := rfl
  simp only [aQueueMoveAfter, s.tagged l (by simp), ha, ne_eq, not_true_eq_false, if_false,
    if_neg hal, if_neg (s.last ▸ getLast?_ne_of_nodup s.nodup hy), hn, e₁, hl₁, e₂]
  simp only [Heap.setFirst, Heap.setLast, Heap.setNext, Heap.setPrev, hn, hp, assign_of_ne hly,
    hna, Prod.mk.injEq, true_and]
  have hnl : assign (assign (assign h.next xs.getLast? ys.head?) (some l) vs.head?) (some a)
      (some l) l = vs.head? := by
    rw [assign_of_ne (by simpa using hal), assign_same]
  have hlen : h.nitems q = ((us ++ [a] ++ l :: vs).length : Int) := by
    have c := congrArg List.length e
    simp only [List.length_append, List.length_cons] at c
    rw [s.nitems]
    simp
    omega
  rw [hnl]
  ext1
  · simp [Heap.link, Heap.unlink, assign_some]
  · simp [Heap.link, Heap.unlink, assign_some]
  · simp only [Heap.link, Heap.unlink]
    rw [← s.tagged l (by simp), Function.update_eq_self]
  · rfl
  · simp [Heap.link, Heap.unlink, e]
  · simp [Heap.link, Heap.unlink]
  · simp only [Heap.link, Heap.unlink, Function.update_idem]
    rw [← hlen, Function.update_eq_self]

end DlxOs.Queue
