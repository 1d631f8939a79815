import DlxOs.Library.Transition
import DlxOs.Queue.Surgery

/-!
# Sequences of queue operations and their meaning on lists

`QueueOp.run` calls the routine of `queue.c`. `Effect` states what the same call
means for the lists of links, without any pointer.
-/

namespace DlxOs.Queue

open DoublyLinked

variable {ι β : Type*} [DecidableEq ι]

/-- The calls other modules make; a null argument is `none`. -/
inductive QueueOp (ι β : Type*)
  | init (q : Option (QueuePtr ι))
  | allocLink (obj : Option β)
  | remove (pl : Option (Option LinkPtr))
  | insertFirst (q : Option (QueuePtr ι)) (l : Option LinkPtr)
  | insertLast (q : Option (QueuePtr ι)) (l : Option LinkPtr)
  | insertBefore (q : Option (QueuePtr ι)) (before l : Option LinkPtr)
  | insertAfter (q : Option (QueuePtr ι)) (after l : Option LinkPtr)
  | moveAfter (q : Option (QueuePtr ι)) (after l : Option LinkPtr)

/-- What a call hands back: a status, a link, or a status and the new `*pl`. -/
inductive Reply
  | status (r : Int)
  | link (l : Option LinkPtr)
  | removed (r : Int) (pl : Option LinkPtr)

/-- The call returned `QUEUE_FAIL` or a null link. -/
def Reply.Failed : Reply → Prop
  | status r => r = queueFail
  | link l => l = none
  | removed r _ => r = queueFail

def QueueOp.run (h : Heap ι β) : QueueOp ι β → Reply × Heap ι β
  | init q => let (r, h) := aQueueInit h q; (.status r, h)
  | allocLink obj => let (l, h) := aQueueAllocLink h obj; (.link l, h)
  | remove pl => let (r, l, h) := aQueueRemove h pl; (.removed r l, h)
  | insertFirst q l => let (r, h) := aQueueInsertFirst h q l; (.status r, h)
  | insertLast q l => let (r, h) := aQueueInsertLast h q l; (.status r, h)
  | insertBefore q before l => let (r, h) := aQueueInsertBefore h q before l; (.status r, h)
  | insertAfter q after l => let (r, h) := aQueueInsertAfter h q after l; (.status r, h)
  | moveAfter q after l => let (r, h) := aQueueMoveAfter h q after l; (.status r, h)

/-- The links met from the first one on, one for each counted item. -/
def Heap.items (h : Heap ι β) (q : QueuePtr ι) : List LinkPtr :=
  walk h.next (h.nitems q).toNat (h.first q)

omit [DecidableEq ι] in
theorem Shape.items_eq {h : Heap ι β} {q : QueuePtr ι} {L : List LinkPtr} (s : Shape h q L) :
    h.items q = L := by
  rw [Heap.items, s.nitems, s.first, Int.toNat_natCast]
  exact s.chain.walk_eq

/-- A memory with the queues initialised in it. -/
structure Memory (ι β : Type*) where
  heap : Heap ι β
  known : Finset (QueuePtr ι)

/-- `l` is on no initialised queue. -/
def Memory.OnNoQueue (m : Memory ι β) (l : Option LinkPtr) : Prop :=
  ∀ k, l = some k → ∀ q ∈ m.known, k ∉ m.heap.items q

/-- A queue argument is null or initialised. -/
def Memory.Usable (m : Memory ι β) (q : Option (QueuePtr ι)) : Prop := ∀ r, q = some r → r ∈ m.known

/-- The callers' side: initialise fresh queues only, insert only links on no queue. -/
def Memory.Legal (m : Memory ι β) : QueueOp ι β → Prop
  | .init q => ∀ r, q = some r → r ∉ m.known
  | .allocLink _ => True
  | .remove _ => True
  | .insertFirst q l => m.Usable q ∧ m.OnNoQueue l
  | .insertLast q l => m.Usable q ∧ m.OnNoQueue l
  | .insertBefore q _ l => m.Usable q ∧ m.OnNoQueue l
  | .insertAfter q _ l => m.Usable q ∧ m.OnNoQueue l
  | .moveAfter q _ _ => m.Usable q

/-- The queues initialised after a call. -/
def QueueOp.knownAfter (known : Finset (QueuePtr ι)) : QueueOp ι β → Finset (QueuePtr ι)
  | init (some q) => insert q known
  | _ => known

/-- All sequences of legal calls after `AQueueModuleInit`. -/
def queueSystem (ι β : Type*) [DecidableEq ι] :
    Transition.System (Memory ι β) (QueueOp ι β × Reply) where
  Init m := m.known = {.freeLinks} ∧ ∃ h, aQueueModuleInit h = some (queueSuccess, m.heap)
  Step m e m' := m.Legal e.1 ∧ e.1.run m.heap = (e.2, m'.heap) ∧
    m'.known = e.1.knownAfter m.known

/-- `l` put right behind `a`. -/
def linkAfter (a l : LinkPtr) : List LinkPtr → List LinkPtr
  | [] => []
  | x :: rest => if x = a then x :: l :: rest else x :: linkAfter a l rest

/-- `l` put right before `b`. -/
def linkBefore (b l : LinkPtr) : List LinkPtr → List LinkPtr
  | [] => []
  | x :: rest => if x = b then l :: x :: rest else x :: linkBefore b l rest

theorem linkAfter_append {a l : LinkPtr} {xs ys : List LinkPtr} (h : a ∉ xs) :
    linkAfter a l (xs ++ a :: ys) = xs ++ a :: l :: ys := by
  induction xs with
  | nil => simp [linkAfter]
  | cons x rest ih =>
      have hx : x ≠ a := fun e => h (by simp [e])
      simp [linkAfter, hx, ih fun hm => h (by simp [hm])]

theorem linkBefore_append {b l : LinkPtr} {xs ys : List LinkPtr} (h : b ∉ xs) :
    linkBefore b l (xs ++ b :: ys) = xs ++ l :: b :: ys := by
  induction xs with
  | nil => simp [linkBefore]
  | cons x rest ih =>
      have hx : x ≠ b := fun e => h (by simp [e])
      simp [linkBefore, hx, ih fun hm => h (by simp [hm])]

/-- The arguments on which `AQueueMoveAfter` refuses to move. -/
def MoveRefused (L : List LinkPtr) (after : Option LinkPtr) (l : LinkPtr) : Prop :=
  l ∉ L ∨ (∃ a, after = some a ∧ a ∉ L) ∨
    (∃ a, after = some a ∧ a ≠ l ∧ L.getLast? = some l) ∨ (after = none ∧ L ≠ [l])

/-- What a call means on lists: its reply and the lists after it. -/
inductive Effect (S : Pool ι β) : QueueOp ι β → Reply → Pool ι β → Prop
  | initNull : Effect S (.init none) (.status queueFail) S
  | init (q : QueuePtr ι) : Effect S (.init (some q)) (.status queueSuccess)
      { S.setItems q [] with known := insert q S.known }
  | allocNull (obj) (h : S.items .freeLinks = []) : Effect S (.allocLink obj) (.link none) S
  | alloc (obj) {l rest} (h : S.items .freeLinks = l :: rest) :
      Effect S (.allocLink obj) (.link (some l))
        { S.setItems .freeLinks rest with object := Function.update S.object l obj }
  | removeNull {pl} (h : pl = none ∨ pl = some none) :
      Effect S (.remove pl) (.removed queueFail none) S
  | removeFail {l} (h : ∀ q ∈ S.known, l ∉ S.items q) :
      Effect S (.remove (some (some l))) (.removed queueFail (some l)) S
  | remove {q l} (hq : q ∈ S.known) (hl : l ∈ S.items q) {S₁ : Pool ι β}
      (h₁ : S₁ = S.setItems q ((S.items q).erase l)) :
      Effect S (.remove (some (some l))) (.removed queueSuccess none)
        (S₁.setItems .freeLinks (S₁.items .freeLinks ++ [l]))
  | insertFirstNull {q l} (h : q = none ∨ l = none) :
      Effect S (.insertFirst q l) (.status queueFail) S
  | insertFirst (q l) : Effect S (.insertFirst (some q) (some l)) (.status queueSuccess)
      (S.setItems q (l :: S.items q))
  | insertLastNull {q l} (h : q = none ∨ l = none) :
      Effect S (.insertLast q l) (.status queueFail) S
  | insertLast (q l) : Effect S (.insertLast (some q) (some l)) (.status queueSuccess)
      (S.setItems q (S.items q ++ [l]))
  | insertBeforeNull {q b l} (h : q = none ∨ l = none) :
      Effect S (.insertBefore q b l) (.status queueFail) S
  | insertBeforeFail {q l b} (h : ∀ k, b = some k → k ∉ S.items q)
      (hn : b = none → S.items q ≠ []) :
      Effect S (.insertBefore (some q) b (some l)) (.status queueFail) S
  | insertBeforeEmpty {q l} (h : S.items q = []) :
      Effect S (.insertBefore (some q) none (some l)) (.status queueSuccess) (S.setItems q [l])
  | insertBefore {q l b} (h : b ∈ S.items q) :
      Effect S (.insertBefore (some q) (some b) (some l)) (.status queueSuccess)
        (S.setItems q (linkBefore b l (S.items q)))
  | insertAfterNull {q a l} (h : q = none ∨ l = none) :
      Effect S (.insertAfter q a l) (.status queueFail) S
  | insertAfterFail {q l a} (h : ∀ k, a = some k → k ∉ S.items q)
      (hn : a = none → S.items q ≠ []) :
      Effect S (.insertAfter (some q) a (some l)) (.status queueFail) S
  | insertAfterEmpty {q l} (h : S.items q = []) :
      Effect S (.insertAfter (some q) none (some l)) (.status queueSuccess) (S.setItems q [l])
  | insertAfter {q l a} (h : a ∈ S.items q) :
      Effect S (.insertAfter (some q) (some a) (some l)) (.status queueSuccess)
        (S.setItems q (linkAfter a l (S.items q)))
  | moveNull {q a l} (h : q = none ∨ l = none) : Effect S (.moveAfter q a l) (.status queueFail) S
  | moveFail {q a l} (h : MoveRefused (S.items q) a l) :
      Effect S (.moveAfter (some q) a (some l)) (.status queueFail) S
  | moveStay {q a l} (h : ¬ MoveRefused (S.items q) a l) (ha : a = none ∨ a = some l) :
      Effect S (.moveAfter (some q) a (some l)) (.status queueSuccess) S
  | move {q a l} (h : ¬ MoveRefused (S.items q) (some a) l) (ha : a ≠ l) :
      Effect S (.moveAfter (some q) (some a) (some l)) (.status queueSuccess)
        (S.setItems q (linkAfter a l ((S.items q).erase l)))

end DlxOs.Queue
