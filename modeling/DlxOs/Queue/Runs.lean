import DlxOs.Queue.Refinement
import Mathlib.Algebra.BigOperators.Option
import Mathlib.Data.Finset.Option

/-!
# Every sequence of queue calls refines its list operations

`AQueueModuleInit` establishes the representation whatever the memory held
before, each legal call keeps it, and the links are counted through the queue
field that tells where each of them is.
-/

namespace DlxOs.Queue

open DoublyLinked Transition

variable {ι β : Type*} [DecidableEq ι] {h : Heap ι β} {S : Pool ι β}

/-- One round of the initialisation appends one more link. -/
theorem poolLink_append {L : List LinkPtr} {i : LinkPtr} (s : Shape h .freeLinks L)
    (hi : i ∉ L) : ∃ h', poolLink h i = some h' ∧ Shape h' .freeLinks (L ++ [i]) := by
  have hs : Shape (((h.setNext (some i) none).setPrev (some i) none).setObject i none)
      .freeLinks L := by
    refine s.frame rfl rfl rfl fun k hk => ?_
    have hik : some i ≠ some k := fun e => hi (Option.some.inj e ▸ hk)
    exact ⟨assign_of_ne hik, assign_of_ne hik, rfl⟩
  refine ⟨_, ?_, (show Shape _ _ (L ++ []) by simpa using hs).link (by simpa using hi)⟩
  rw [poolLink, aQueueInsertLast_link hs hi]
  simp

theorem poolLinks_append (xs ys : List LinkPtr) (s : Shape h .freeLinks xs)
    (hd : (xs ++ ys).Nodup) :
    ∃ h', ys.foldlM poolLink h = some h' ∧ Shape h' .freeLinks (xs ++ ys) := by
  induction ys generalizing h xs with
  | nil => exact ⟨h, rfl, by simpa using s⟩
  | cons i rest ih =>
      have hi : i ∉ xs := fun hm => (List.nodup_append.mp hd).2.2 i hm i (by simp) rfl
      obtain ⟨h₁, e₁, s₁⟩ := poolLink_append s hi
      obtain ⟨h₂, e₂, s₂⟩ := ih (xs ++ [i]) s₁ (by simpa using hd)
      exact ⟨h₂, by simp [e₁, e₂], by simpa using s₂⟩

/-- The lists after the initialisation of the module. -/
def Pool.boot (h : Heap ι β) : Pool ι β where
  known := {.freeLinks}
  items q := if q = .freeLinks then List.finRange queueMaxLinks else []
  object := h.object

/-- `AQueueModuleInit` succeeds and fills `freeLinks`. -/
theorem aQueueModuleInit_represents (h : Heap ι β) :
    ∃ h', aQueueModuleInit h = some (queueSuccess, h') ∧ Represents h' (Pool.boot h') := by
  have s : Shape (aQueueInit h (some .freeLinks)).2 .freeLinks [] :=
    ⟨by simp [aQueueInit, Heap.setFirst, Heap.setLast, Heap.setNitems],
      by simp [aQueueInit, Heap.setFirst, Heap.setLast, Heap.setNitems],
      by simp [aQueueInit, Heap.setFirst, Heap.setLast, Heap.setNitems], trivial, by simp, by simp⟩
  have hd : ([] ++ List.finRange queueMaxLinks).Nodup := by
    rw [List.nil_append]
    exact List.nodup_finRange queueMaxLinks
  obtain ⟨h', e, s'⟩ := poolLinks_append [] (List.finRange queueMaxLinks) s hd
  rw [List.nil_append] at s'
  have hq : ∀ l, h'.queue l = some .freeLinks := fun l => s'.tagged l (List.mem_finRange l)
  refine ⟨h', ?_, by simp [Pool.boot], fun q hk => ?_, fun l q _ e => ?_,
    fun l e => (by cases e), rfl⟩
  · simp only [aQueueModuleInit]
    rw [if_neg (by simp [aQueueInit]), e, Option.map_some]
  · obtain rfl : q = .freeLinks := by simpa [Pool.boot] using hk
    simpa [Pool.boot] using s'
  · obtain rfl : QueuePtr.freeLinks = q := by simpa [hq l] using e
    simp [Pool.boot]

omit [DecidableEq ι] in
/-- A link that is on no initialised queue has a null queue field. -/
theorem Represents.queue_eq_none (t : Represents h S) {l : LinkPtr}
    (hl : ∀ q ∈ S.known, l ∉ S.items q) : h.queue l = none := by
  cases e : h.queue l with
  | none => rfl
  | some q =>
      obtain ⟨hq, hm⟩ := t.placed l q (by simp) e
      exact absurd hm (hl q hq)

/-- Free, queued and detached links make up the pool. -/
theorem Represents.count (t : Represents h S) :
    (S.items .freeLinks).length + ∑ q ∈ S.known.erase .freeLinks, (S.items q).length +
      (Finset.univ.filter fun l => ∀ q ∈ S.known, l ∉ S.items q).card = queueMaxLinks := by
  have hfiber : ∀ q ∈ S.known, (Finset.univ.filter fun l => h.queue l = some q).card =
      (S.items q).length := fun q hq => by
    rw [← List.toFinset_card_of_nodup (t.shape q hq).nodup]
    congr 1
    ext l
    simp [t.mem_iff hq]
  have hnone : (Finset.univ.filter fun l => h.queue l = none) =
      Finset.univ.filter fun l => ∀ q ∈ S.known, l ∉ S.items q := by
    ext l
    simp only [Finset.mem_filter, Finset.mem_univ, true_and]
    exact ⟨fun e q hq => t.not_mem_of_detached e hq, t.queue_eq_none⟩
  have hmaps : Set.MapsTo h.queue (Finset.univ : Finset LinkPtr) (Finset.insertNone S.known) := by
    intro l _
    cases e : h.queue l with
    | none => simp
    | some q => simpa using (t.placed l q (by simp) e).1
  have htotal := Finset.card_eq_sum_card_fiberwise hmaps
  rw [Finset.sum_insertNone, Finset.sum_congr rfl hfiber, hnone,
    ← Finset.add_sum_erase _ _ t.free_known] at htotal
  simp only [Finset.card_univ, Fintype.card_fin] at htotal
  omega

/-- The call does on the memory what its list operation does on the lists, and nothing at all
when it reports a failure. -/
def Performed (h : Heap ι β) (S : Pool ι β) (op : QueueOp ι β) : Prop :=
  ∃ S', Effect S op (op.run h).1 S' ∧ Represents (op.run h).2 S' ∧
    ((op.run h).1.Failed → (op.run h).2 = h)

theorem Represents.performed_same (t : Represents h S) {op : QueueOp ι β} {r : Reply}
    (e : op.run h = (r, h)) (heff : Effect S op r S) : Performed h S op :=
  ⟨S, by rw [e]; exact heff, by rw [e]; exact t, fun _ => by rw [e]⟩

theorem performed_done {h' : Heap ι β} {S' : Pool ι β} {op : QueueOp ι β} {r : Reply}
    (e : op.run h = (r, h')) (heff : Effect S op r S') (t' : Represents h' S')
    (hr : ¬ r.Failed) : Performed h S op :=
  ⟨S', by rw [e]; exact heff, by rw [e]; exact t', fun f => absurd (by rwa [e] at f) hr⟩

theorem queueSuccess_not_failed : ¬ (Reply.status queueSuccess).Failed := by
  simp [Reply.Failed, queueSuccess, queueFail]

theorem Represents.performed_init (t : Represents h S) (q : Option (QueuePtr ι))
    (hq : ∀ r, q = some r → r ∉ S.known) : Performed h S (.init q) := by
  cases q with
  | none => exact t.performed_same rfl .initNull
  | some q => exact performed_done rfl (.init q) (t.init (hq q rfl)) queueSuccess_not_failed

theorem Represents.performed_allocLink (t : Represents h S) (obj : Option β) :
    Performed h S (.allocLink obj) := by
  cases he : S.items .freeLinks with
  | nil => exact t.performed_same (by simp [QueueOp.run, t.alloc_empty he]) (.allocNull obj he)
  | cons l rest =>
      obtain ⟨h', e, -, t'⟩ := t.alloc he obj
      exact performed_done (by simp [QueueOp.run, e]) (.alloc obj he) t' (by simp [Reply.Failed])

theorem Represents.performed_remove (t : Represents h S) (pl : Option (Option LinkPtr)) :
    Performed h S (.remove pl) := by
  rcases pl with - | - | l
  · exact t.performed_same rfl (.removeNull (.inl rfl))
  · exact t.performed_same rfl (.removeNull (.inr rfl))
  · cases hl : h.queue l with
    | none =>
        exact t.performed_same (by simp [QueueOp.run, aQueueRemove_detached hl])
          (.removeFail fun q hq => t.not_mem_of_detached hl hq)
    | some q =>
        obtain ⟨hq, hm⟩ := t.placed l q (by simp) hl
        obtain ⟨h', e, t'⟩ := t.remove hq hm rfl
        exact performed_done (by simp [QueueOp.run, e]) (.remove hq hm rfl) t'
          (by simp [Reply.Failed, queueSuccess, queueFail])

theorem Represents.performed_insertFirst (t : Represents h S) (q : Option (QueuePtr ι))
    (l : Option LinkPtr) (hq : ∀ r, q = some r → r ∈ S.known)
    (hl : ∀ k, l = some k → h.queue k = none) : Performed h S (.insertFirst q l) := by
  cases l with
  | none => exact t.performed_same rfl (.insertFirstNull (.inr rfl))
  | some l =>
      cases q with
      | none => exact t.performed_same rfl (.insertFirstNull (.inl rfl))
      | some q =>
          obtain ⟨e, t'⟩ := (t.float (hl l rfl)).prepend (hq q rfl)
          exact performed_done (by simp [QueueOp.run, e]) (.insertFirst q l) t'
            queueSuccess_not_failed

theorem Represents.performed_insertLast (t : Represents h S) (q : Option (QueuePtr ι))
    (l : Option LinkPtr) (hq : ∀ r, q = some r → r ∈ S.known)
    (hl : ∀ k, l = some k → h.queue k = none) : Performed h S (.insertLast q l) := by
  cases l with
  | none => exact t.performed_same rfl (.insertLastNull (.inr rfl))
  | some l =>
      cases q with
      | none => exact t.performed_same rfl (.insertLastNull (.inl rfl))
      | some q =>
          obtain ⟨e, t'⟩ := (t.float (hl l rfl)).append (hq q rfl)
          exact performed_done (by simp [QueueOp.run, e]) (.insertLast q l) t'
            queueSuccess_not_failed

theorem Represents.performed_insertBefore (t : Represents h S) (q : Option (QueuePtr ι))
    (b l : Option LinkPtr) (hq : ∀ r, q = some r → r ∈ S.known)
    (hl : ∀ k, l = some k → h.queue k = none) : Performed h S (.insertBefore q b l) := by
  cases l with
  | none => exact t.performed_same rfl (.insertBeforeNull (.inr rfl))
  | some l =>
      cases q with
      | none => exact t.performed_same rfl (.insertBeforeNull (.inl rfl))
      | some q =>
          have hs := t.shape q (hq q rfl)
          cases b with
          | none =>
              by_cases he : S.items q = []
              · have t' := (t.float (hl l rfl)).link (hq q rfl) [] [] he
                rw [he] at hs
                exact performed_done (by simp [QueueOp.run, aQueueInsertBefore_empty hs])
                  (.insertBeforeEmpty he) t' queueSuccess_not_failed
              · have hne : aQueueEmpty h q = false := by
                  simp [Bool.eq_false_iff, hs.isEmpty_iff, he]
                exact t.performed_same (by simp [QueueOp.run, aQueueInsertBefore, hne])
                  (.insertBeforeFail (by simp) fun _ => he)
          | some b =>
              by_cases hb : b ∈ S.items q
              · obtain ⟨h', e, t'⟩ := t.insertBefore (hl l rfl) (hq q rfl) hb
                exact performed_done (by simp [QueueOp.run, e]) (.insertBefore hb) t'
                  queueSuccess_not_failed
              · have hb' : h.queue b ≠ some q := fun e => hb ((t.mem_iff (hq q rfl) b).mpr e)
                exact t.performed_same (by simp [QueueOp.run, aQueueInsertBefore, hb'])
                  (.insertBeforeFail (by simpa using hb) (by simp))

theorem Represents.performed_insertAfter (t : Represents h S) (q : Option (QueuePtr ι))
    (a l : Option LinkPtr) (hq : ∀ r, q = some r → r ∈ S.known)
    (hl : ∀ k, l = some k → h.queue k = none) : Performed h S (.insertAfter q a l) := by
  cases l with
  | none => exact t.performed_same rfl (.insertAfterNull (.inr rfl))
  | some l =>
      cases q with
      | none => exact t.performed_same rfl (.insertAfterNull (.inl rfl))
      | some q =>
          have hs := t.shape q (hq q rfl)
          cases a with
          | none =>
              by_cases he : S.items q = []
              · have t' := (t.float (hl l rfl)).link (hq q rfl) [] [] he
                rw [he] at hs
                exact performed_done (by simp [QueueOp.run, aQueueInsertAfter_empty hs])
                  (.insertAfterEmpty he) t' queueSuccess_not_failed
              · have hne : aQueueEmpty h q = false := by
                  simp [Bool.eq_false_iff, hs.isEmpty_iff, he]
                exact t.performed_same (by simp [QueueOp.run, aQueueInsertAfter, hne])
                  (.insertAfterFail (by simp) fun _ => he)
          | some a =>
              by_cases ha : a ∈ S.items q
              · obtain ⟨h', e, t'⟩ := t.insertAfter (hl l rfl) (hq q rfl) ha
                exact performed_done (by simp [QueueOp.run, e]) (.insertAfter ha) t'
                  queueSuccess_not_failed
              · have ha' : h.queue a ≠ some q := fun e => ha ((t.mem_iff (hq q rfl) a).mpr e)
                exact t.performed_same (by simp [QueueOp.run, aQueueInsertAfter, ha'])
                  (.insertAfterFail (by simpa using ha) (by simp))

theorem Represents.performed_moveAfter (t : Represents h S) (q : Option (QueuePtr ι))
    (a l : Option LinkPtr) (hq : ∀ r, q = some r → r ∈ S.known) : Performed h S (.moveAfter q a l) := by
  cases q with
  | none => exact t.performed_same rfl (.moveNull (.inl rfl))
  | some q =>
      cases l with
      | none => exact t.performed_same rfl (.moveNull (.inr rfl))
      | some l =>
          by_cases hm : MoveRefused (S.items q) a l
          · exact t.performed_same (by simp [QueueOp.run, t.moveAfter_refused (hq q rfl) hm])
              (.moveFail hm)
          · by_cases ha : a = none ∨ a = some l
            · exact performed_done (by simp [QueueOp.run, t.moveAfter_stay (hq q rfl) hm ha])
                (.moveStay hm ha) t queueSuccess_not_failed
            · obtain ⟨ha₀, ha₁⟩ := not_or.mp ha
              obtain ⟨a, rfl⟩ := Option.ne_none_iff_exists'.mp ha₀
              have hal : a ≠ l := fun e => ha₁ (by rw [e])
              obtain ⟨h', e, t'⟩ := t.moveAfter (hq q rfl) hm hal
              exact performed_done (by simp [QueueOp.run, e]) (.move hm hal) t'
                queueSuccess_not_failed

omit [DecidableEq ι] in
/-- An initialised queue argument and a link on no queue, as the insertions need them. -/
theorem Represents.detached_of_onNoQueue {m : Memory ι β} (t : Represents m.heap S)
    (hk : S.known = m.known) {l : Option LinkPtr} (hl : m.OnNoQueue l) (k : LinkPtr)
    (e : l = some k) : m.heap.queue k = none :=
  t.queue_eq_none fun q hq => by
    rw [← (t.shape q hq).items_eq]
    exact hl k e q (hk ▸ hq)

/-- Every legal call performs its list operation. -/
theorem Represents.performed {m : Memory ι β} (t : Represents m.heap S)
    (hk : S.known = m.known) {op : QueueOp ι β} (legal : m.Legal op) :
    Performed m.heap S op := by
  cases op with
  | init q => exact t.performed_init q fun r e => hk ▸ legal r e
  | allocLink obj => exact t.performed_allocLink obj
  | remove pl => exact t.performed_remove pl
  | insertFirst q l =>
      exact t.performed_insertFirst q l (fun r e => hk ▸ legal.1 r e)
        (t.detached_of_onNoQueue hk legal.2)
  | insertLast q l =>
      exact t.performed_insertLast q l (fun r e => hk ▸ legal.1 r e)
        (t.detached_of_onNoQueue hk legal.2)
  | insertBefore q b l =>
      exact t.performed_insertBefore q b l (fun r e => hk ▸ legal.1 r e)
        (t.detached_of_onNoQueue hk legal.2)
  | insertAfter q a l =>
      exact t.performed_insertAfter q a l (fun r e => hk ▸ legal.1 r e)
        (t.detached_of_onNoQueue hk legal.2)
  | moveAfter q a l => exact t.performed_moveAfter q a l fun r e => hk ▸ legal r e

/-- Only `AQueueInit` adds a queue. -/
theorem Effect.known_eq {S' : Pool ι β} {op : QueueOp ι β} {r : Reply} (e : Effect S op r S') :
    S'.known = op.knownAfter S.known := by
  cases e with
  | remove hq hl h₁ => simp [h₁, QueueOp.knownAfter]
  | _ => rfl

/-- Some lists are represented in every reachable memory. -/
theorem exists_represents {m : Memory ι β} (hm : (queueSystem ι β).Reachable m) :
    ∃ S, S.known = m.known ∧ Represents m.heap S := by
  refine hm.invariant (P := fun m => ∃ S, S.known = m.known ∧ Represents m.heap S) ?_ ?_
  · rintro m ⟨hk, h, e⟩
    obtain ⟨h', e', t⟩ := aQueueModuleInit_represents h
    obtain rfl : h' = m.heap := by simpa [e'] using e
    exact ⟨_, hk.symm, t⟩
  · rintro m ⟨op, r⟩ m' - ⟨S, hk, t⟩ ⟨legal, hrun, hk'⟩
    obtain ⟨S', heff, t', -⟩ := t.performed hk legal
    rw [hrun] at t'
    exact ⟨S', by rw [heff.known_eq, hk, hk'], t'⟩

/-- How a memory and the lists it stands for hang together. -/
structure ListView (m : Memory ι β) (S : Pool ι β) : Prop where
  known : S.known = m.known
  represents : Represents m.heap S
  nodup : ∀ q ∈ m.known, (S.items q).Nodup
  apart : ∀ q ∈ m.known, ∀ r ∈ m.known, ∀ l, l ∈ S.items q → l ∈ S.items r → q = r
  count : (S.items .freeLinks).length + ∑ q ∈ m.known.erase .freeLinks, (S.items q).length +
    (Finset.univ.filter fun l => ∀ q ∈ m.known, l ∉ S.items q).card = queueMaxLinks
  performed : ∀ op, m.Legal op → Performed m.heap S op
  move_fails : ∀ q ∈ m.known, ∀ after l,
    (aQueueMoveAfter m.heap (some q) after (some l)).1 = queueFail ↔
      MoveRefused (S.items q) after l

/-- `AQueueMoveAfter` fails on exactly the refused arguments. -/
theorem Represents.moveAfter_fails_iff (t : Represents h S) {q : QueuePtr ι} (hq : q ∈ S.known)
    (a : Option LinkPtr) (l : LinkPtr) :
    (aQueueMoveAfter h (some q) a (some l)).1 = queueFail ↔ MoveRefused (S.items q) a l := by
  refine ⟨fun e => ?_, fun hm => by rw [t.moveAfter_refused hq hm]⟩
  by_contra hm
  by_cases ha : a = none ∨ a = some l
  · simp [t.moveAfter_stay hq hm ha, queueSuccess, queueFail] at e
  · obtain ⟨ha₀, ha₁⟩ := not_or.mp ha
    obtain ⟨a, rfl⟩ := Option.ne_none_iff_exists'.mp ha₀
    obtain ⟨h', e', -⟩ := t.moveAfter hq hm fun c => ha₁ (by rw [c])
    simp [e', queueSuccess, queueFail] at e

/-- The link queues refine lists after every sequence of legal calls. -/
theorem queues_refine_lists {m : Memory ι β} (hm : (queueSystem ι β).Reachable m) :
    ∃ S, ListView m S := by
  obtain ⟨S, hk, t⟩ := exists_represents hm
  refine ⟨S, hk, t, ?_, ?_, ?_, fun op legal => t.performed hk legal, ?_⟩
  · exact fun q hq => (t.shape q (hk ▸ hq)).nodup
  · exact fun q hq r hr l => t.same_queue (hk ▸ hq) (hk ▸ hr)
  · rw [← hk]
    exact t.count
  · exact fun q hq after l => t.moveAfter_fails_iff (hk ▸ hq) after l

/-- The lists after a first queue is initialised beside the pool. -/
theorem queues_refine_lists_first_queue : ∃ m : Memory Unit Nat,
    (queueSystem Unit Nat).Reachable m ∧ .named () ∈ m.known ∧ ∃ S, ListView m S := by
  let blank : Heap Unit Nat := ⟨fun _ => none, fun _ => none, fun _ => none, fun _ => none,
    fun _ => none, fun _ => none, fun _ => 0⟩
  obtain ⟨h', e, -⟩ := aQueueModuleInit_represents blank
  have boot : (queueSystem Unit Nat).Reachable ⟨h', {.freeLinks}⟩ := .init ⟨rfl, blank, e⟩
  have step : (queueSystem Unit Nat).Step ⟨h', {.freeLinks}⟩
      (.init (some (.named ())), .status queueSuccess)
      ⟨(aQueueInit h' (some (.named ()))).2, {.named (), .freeLinks}⟩ :=
    ⟨by simp [Memory.Legal], rfl, rfl⟩
  have fresh := boot.step step
  exact ⟨_, fresh, by simp, queues_refine_lists fresh⟩

end DlxOs.Queue
