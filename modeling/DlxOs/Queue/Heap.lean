import DlxOs.Library.DoublyLinked
import Mathlib.Data.List.FinRange

/-!
# The link pool and the queues of `os/queue.c`

Every field of `Link` and of `Queue` is a table of its own, indexed by the
pointer through which the source reads it. A null pointer is `none`. The
functions follow the source assignment by assignment; each takes the memory and
returns its result with the new memory.
-/

namespace DlxOs.Queue

open DoublyLinked

def queueMaxLinks : Nat := 400

def queueFail : Int := 0

def queueSuccess : Int := 1

/-- An element of `linkpool`; no other links exist. -/
abbrev LinkPtr := Fin queueMaxLinks

/-- The queue `freeLinks` of this module, or one of the queues declared elsewhere. -/
inductive QueuePtr (ι : Type*)
  | freeLinks
  | named (i : ι)
  deriving DecidableEq

/-- The memory of `queue.c`: the fields of `linkpool` and of every queue. -/
@[ext] structure Heap (ι β : Type*) where
  next : LinkPtr → Option LinkPtr
  prev : LinkPtr → Option LinkPtr
  queue : LinkPtr → Option (QueuePtr ι)
  object : LinkPtr → Option β
  first : QueuePtr ι → Option LinkPtr
  last : QueuePtr ι → Option LinkPtr
  nitems : QueuePtr ι → Int

variable {ι β : Type*} [DecidableEq ι]

namespace Heap

/-- `if (o) o->next = v;` -/
def setNext (h : Heap ι β) (o v : Option LinkPtr) : Heap ι β :=
  { h with next := assign h.next o v }

/-- `if (o) o->prev = v;` -/
def setPrev (h : Heap ι β) (o v : Option LinkPtr) : Heap ι β :=
  { h with prev := assign h.prev o v }

def setQueue (h : Heap ι β) (l : LinkPtr) (v : Option (QueuePtr ι)) : Heap ι β :=
  { h with queue := Function.update h.queue l v }

def setObject (h : Heap ι β) (l : LinkPtr) (v : Option β) : Heap ι β :=
  { h with object := Function.update h.object l v }

def setFirst (h : Heap ι β) (q : QueuePtr ι) (v : Option LinkPtr) : Heap ι β :=
  { h with first := Function.update h.first q v }

def setLast (h : Heap ι β) (q : QueuePtr ι) (v : Option LinkPtr) : Heap ι β :=
  { h with last := Function.update h.last q v }

def setNitems (h : Heap ι β) (q : QueuePtr ι) (v : Int) : Heap ι β :=
  { h with nitems := Function.update h.nitems q v }

end Heap

def aQueueFirst (h : Heap ι β) (q : QueuePtr ι) : Option LinkPtr := h.first q

def aQueueLast (h : Heap ι β) (q : QueuePtr ι) : Option LinkPtr := h.last q

def aQueueNext (h : Heap ι β) (l : LinkPtr) : Option LinkPtr := h.next l

def aQueueObject (h : Heap ι β) (l : LinkPtr) : Option β := h.object l

def aQueueLength (h : Heap ι β) (q : QueuePtr ι) : Int := h.nitems q

def aQueueEmpty (h : Heap ι β) (q : QueuePtr ι) : Bool := aQueueLength h q == 0

/-- `AQueueInit`: zero items. -/
def aQueueInit (h : Heap ι β) : Option (QueuePtr ι) → Int × Heap ι β
  | none => (queueFail, h)
  | some q => (queueSuccess, ((h.setFirst q none).setLast q none).setNitems q 0)

/-- `AQueueInsertAfter`: a null `after` is accepted on an empty queue only. -/
def aQueueInsertAfter (h : Heap ι β) (q : Option (QueuePtr ι)) (after l : Option LinkPtr) :
    Int × Heap ι β :=
  match l, q with
  | none, _ => (queueFail, h)
  | _, none => (queueFail, h)
  | some l, some q =>
    let refused := match after with
      | some a => decide (h.queue a ≠ some q)
      | none => (h.first q).isSome || (h.last q).isSome || !aQueueEmpty h q
    if refused then (queueFail, h) else
      let h := h.setQueue l (some q)
      let h := h.setPrev (some l) after
      let h := h.setNext (some l) (after.bind h.next)
      let h := h.setNext after (some l)
      let h := h.setPrev (h.next l) (some l)
      match after with
      | none => (queueSuccess, ((h.setFirst q (some l)).setLast q (some l)).setNitems q 1)
      | some a =>
        let h := if h.last q = some a then h.setLast q (some l) else h
        (queueSuccess, h.setNitems q (h.nitems q + 1))

/-- `AQueueInsertBefore`: a null `before` is accepted on an empty queue only. -/
def aQueueInsertBefore (h : Heap ι β) (q : Option (QueuePtr ι)) (before l : Option LinkPtr) :
    Int × Heap ι β :=
  match l, q with
  | none, _ => (queueFail, h)
  | _, none => (queueFail, h)
  | some l, some q =>
    let refused := match before with
      | some b => decide (h.queue b ≠ some q)
      | none => (aQueueFirst h q).isSome || (aQueueLast h q).isSome || !aQueueEmpty h q
    if refused then (queueFail, h) else
      let h := h.setQueue l (some q)
      let h := h.setNext (some l) before
      let h := h.setPrev (some l) (before.bind h.prev)
      let h := h.setPrev before (some l)
      let h := h.setNext (h.prev l) (some l)
      match before with
      | none => (queueSuccess, ((h.setFirst q (some l)).setLast q (some l)).setNitems q 1)
      | some b =>
        let h := if h.first q = some b then h.setFirst q (some l) else h
        (queueSuccess, h.setNitems q (h.nitems q + 1))

def aQueueInsertFirst (h : Heap ι β) (q : Option (QueuePtr ι)) (l : Option LinkPtr) :
    Int × Heap ι β :=
  match l, q with
  | none, _ => (queueFail, h)
  | _, none => (queueFail, h)
  | some l, some q => aQueueInsertBefore h (some q) (aQueueFirst h q) (some l)

def aQueueInsertLast (h : Heap ι β) (q : Option (QueuePtr ι)) (l : Option LinkPtr) :
    Int × Heap ι β :=
  match l, q with
  | none, _ => (queueFail, h)
  | _, none => (queueFail, h)
  | some l, some q => aQueueInsertAfter h (some q) (aQueueLast h q) (some l)

/-- `AQueueAllocLink`: the head of `freeLinks`, detached, with its object set. -/
def aQueueAllocLink (h : Heap ι β) (obj : Option β) : Option LinkPtr × Heap ι β :=
  if aQueueEmpty h .freeLinks then (none, h) else
    match aQueueFirst h .freeLinks with
    | none => (none, h)
    | some l =>
      let h := if h.first .freeLinks = some l then h.setFirst .freeLinks (h.next l) else h
      let h := if h.last .freeLinks = some l then h.setLast .freeLinks (h.prev l) else h
      let h := h.setNitems .freeLinks (h.nitems .freeLinks - 1)
      let h := h.setNext (h.prev l) (h.next l)
      let h := h.setPrev (h.next l) (h.prev l)
      let h := h.setNext (some l) none
      let h := h.setPrev (some l) none
      let h := h.setQueue l none
      (some l, h.setObject l obj)

/-- `AQueueRemove` on the variable `pl` points to: its result, the new value of
that variable and the new memory. -/
def aQueueRemove (h : Heap ι β) (pl : Option (Option LinkPtr)) :
    Int × Option LinkPtr × Heap ι β :=
  match pl with
  | none => (queueFail, none, h)
  | some none => (queueFail, none, h)
  | some (some l) =>
    match h.queue l with
    | none => (queueFail, some l, h)
    | some q =>
      let h := if aQueueFirst h q = some l then h.setFirst q (h.next l) else h
      let h := if aQueueLast h q = some l then h.setLast q (h.prev l) else h
      let h := h.setNext (h.prev l) (h.next l)
      let h := h.setPrev (h.next l) (h.prev l)
      let h := h.setNitems q (h.nitems q - 1)
      (queueSuccess, none, (aQueueInsertLast h (some .freeLinks) (some l)).2)

/-- `AQueueMoveAfter`: the links keep their queue, so its item count stays. -/
def aQueueMoveAfter (h : Heap ι β) (q : Option (QueuePtr ι)) (after l : Option LinkPtr) :
    Int × Heap ι β :=
  match q, l with
  | none, _ => (queueFail, h)
  | _, none => (queueFail, h)
  | some q, some l =>
    if h.queue l ≠ some q then (queueFail, h) else
      match after with
      | none =>
        if aQueueLength h q ≠ 1 then (queueFail, h)
        else if aQueueFirst h q ≠ aQueueLast h q then (queueFail, h)
        else (queueSuccess, h)
      | some a =>
        if h.queue a ≠ some q then (queueFail, h)
        else if a = l then (queueSuccess, h)
        else if h.last q = some l then (queueFail, h)
        else
          let h := if h.first q = some l then h.setFirst q (h.next l) else h
          let h := if h.last q = some a then h.setLast q (some l) else h
          let h := h.setPrev (h.next l) (h.prev l)
          let h := h.setNext (h.prev l) (h.next l)
          let h := h.setPrev (some l) (some a)
          let h := h.setNext (some l) (h.next a)
          let h := h.setNext (some a) (some l)
          (queueSuccess, h.setPrev (h.next l) (some l))

/-- One round of the loop of `AQueueModuleInit`; `none` is the fatal exit. -/
def poolLink (h : Heap ι β) (i : LinkPtr) : Option (Heap ι β) :=
  let h := (h.setNext (some i) none).setPrev (some i) none
  let h := h.setObject i none
  let (result, h) := aQueueInsertLast h (some .freeLinks) (some i)
  if result ≠ queueSuccess then none else some h

/-- `AQueueModuleInit`: all links of the pool go to `freeLinks` in order. -/
def aQueueModuleInit (h : Heap ι β) : Option (Int × Heap ι β) :=
  let (result, h) := aQueueInit h (some .freeLinks)
  if result ≠ queueSuccess then none else
    ((List.finRange queueMaxLinks).foldlM poolLink h).map fun h => (queueSuccess, h)

end DlxOs.Queue
