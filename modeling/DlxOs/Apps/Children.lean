import DlxOs.Apps.Spawn
import DlxOs.Library.Threads

/-!
# The children of the ring buffer programs

Producers insert the digits in order and consumers remove them in order, each
program in its own way. `Places` says where in its loop a program stores and
removes an item, and `Knows` what a child knows of the items recorded for it.
-/

namespace DlxOs.Apps

open Interleavings Monitors

variable {N : ℕ}

/-- The local variables of a producer. -/
structure Producer (Pc : Type) where
  pc : Pc
  pDepot : Depot
  product : Char

/-- The local variables of a consumer. -/
structure Consumer (Pc : Type) where
  pc : Pc
  cDepot : Depot
  product : Char
  expectedItem : Char

variable {PP CP : Type}

/-- The head of a producer's loop. -/
def Producer.loop (again completed : PP) (l : Producer PP) : Producer PP :=
  if l.pDepot.index < 10 then { l with product := l.pDepot.item, pc := again }
  else { l with pc := completed }

/-- The head of a consumer's loop. -/
def Consumer.loop (again completed : CP) (l : Consumer CP) : Consumer CP :=
  if l.cDepot.index < 10 then
    { l with expectedItem := ditoaChar l.cDepot.index l.expectedItem, pc := again }
  else { l with pc := completed }

theorem Producer.loop_pc (again completed : PP) (l : Producer PP) :
    (l.loop again completed).pc = again ∨ (l.loop again completed).pc = completed := by
  rw [loop]
  split_ifs
  · exact .inl rfl
  · exact .inr rfl

theorem Consumer.loop_pc (again completed : CP) (l : Consumer CP) :
    (l.loop again completed).pc = again ∨ (l.loop again completed).pc = completed := by
  rw [loop]
  split_ifs
  · exact .inl rfl
  · exact .inr rfl

/-- What is said of both places is said of the place where a loop goes on. -/
theorem Producer.loop_at {α : Type} (f : PP → α) {x : α} (again completed : PP)
    (ha : f again = x) (hc : f completed = x) (l : Producer PP) :
    f (l.loop again completed).pc = x := by
  rcases l.loop_pc again completed with h | h <;> rw [h] <;> assumption

theorem Consumer.loop_at {α : Type} (f : CP → α) {x : α} (again completed : CP)
    (ha : f again = x) (hc : f completed = x) (l : Consumer CP) :
    f (l.loop again completed).pc = x := by
  rcases l.loop_pc again completed with h | h <;> rw [h] <;> assumption

@[simp] theorem Producer.loop_pDepot (again completed : PP) (l : Producer PP) :
    (l.loop again completed).pDepot = l.pDepot := by
  rw [loop]
  split_ifs <;> rfl

@[simp] theorem Consumer.loop_cDepot (again completed : CP) (l : Consumer CP) :
    (l.loop again completed).cDepot = l.cDepot := by
  rw [loop]
  split_ifs <;> rfl

/-- The local states of the children. -/
abbrev Loc (N : ℕ) (PP CP : Type) : Child N → Type
  | .inl _ => Producer PP
  | .inr _ => Consumer CP

/-- Where an item is stored and removed, where the index lags behind that, and where a child has an
item to insert or to expect. -/
structure Places (PP CP : Type) where
  stores : PP → Bool
  stored : PP → Bool
  busy : PP → Bool
  removes : CP → Bool
  taken : CP → Bool
  seeks : CP → Bool
  done : CP → Bool

variable {P : Places PP CP}

/-- The items that a child inserts and removes. -/
def Places.note (P : Places PP CP) {N : ℕ} :
    (p : Child N) → Loc N PP CP p → SharedBuffer → Record N → Record N
  | .inl i, l, buf, o => if P.stores l.pc then o.insert i buf l.product else o
  | .inr j, l, buf, o => if P.removes l.pc then o.remove j buf else o

/-- The items that the producer has inserted. -/
def Places.made (P : Places PP CP) (l : Producer PP) : ℕ := l.pDepot.index + (P.stored l.pc).toNat

/-- The items that the consumer has removed. -/
def Places.gone (P : Places PP CP) (l : Consumer CP) : ℕ := l.cDepot.index + (P.taken l.pc).toNat

/-- The producer inserts the digits in order. -/
structure Producer.Knows (P : Places PP CP) (l : Producer PP) (mine : List Char) : Prop where
  nums : l.pDepot.nums = digits
  mine : mine = digits.take (P.made l)
  le : P.made l ≤ 10
  busy : P.busy l.pc → digits[l.pDepot.index]? = some l.product
  done : ¬ P.busy l.pc → l.pDepot.index = 10

/-- The consumer removes the digits in order. -/
structure Consumer.Knows (P : Places PP CP) (l : Consumer CP) (mine : List Char) : Prop where
  mine : mine = digits.take (P.gone l)
  le : P.gone l ≤ 10
  seeks : P.seeks l.pc → digits[l.cDepot.index]? = some l.expectedItem
  done : P.done l.pc → l.cDepot.index = 10

theorem index_lt {n : ℕ} {c : Char} (h : digits[n]? = some c) : n < 10 := by
  by_contra hn
  rw [List.getElem?_eq_none (by simpa [digits] using hn)] at h
  cases h

namespace Producer.Knows

variable {l l' : Producer PP} {mine : List Char}

theorem isPrefix (h : l.Knows P mine) : mine <+: digits := h.mine ▸ List.take_prefix ..

theorem length (h : l.Knows P mine) : mine.length = P.made l := by
  rw [h.mine, List.length_take]
  exact Nat.min_eq_left h.le

/-- Going on without an item inserted or counted. -/
theorem move (h : l.Knows P mine) {pc : PP} (hs : P.stored pc = P.stored l.pc)
    (hb : P.busy pc = P.busy l.pc) : Producer.Knows P { l with pc := pc } mine := by
  refine ⟨h.nums, ?_, ?_, ?_, ?_⟩
  · simpa only [Places.made, hs] using h.mine
  · simpa only [Places.made, hs] using h.le
  · simpa only [hb] using h.busy
  · simpa only [hb] using h.done

theorem loop {again completed : PP} (hn : l.pDepot.nums = digits)
    (hm : mine = digits.take l.pDepot.index) (hi : l.pDepot.index ≤ 10)
    (hagain : P.stored again = false) (hcompleted : P.stored completed = false)
    (hbusy : P.busy again = true) (hdone : P.busy completed = false) :
    (l.loop again completed).Knows P mine := by
  rw [Producer.loop]
  split_ifs with h
  · refine ⟨hn, ?_, ?_, fun _ => ?_, by simp [hbusy]⟩
    · simpa [Places.made, hagain] using hm
    · simpa [Places.made, hagain] using hi
    · rw [Depot.item, hn, List.getElem?_eq_getElem h]
      rfl
  · refine ⟨hn, ?_, ?_, by simp [hdone], fun _ => by simpa using (by omega : l.pDepot.index = 10)⟩
    · simpa [Places.made, hcompleted] using hm
    · simpa [Places.made, hcompleted] using hi

/-- Storing the item. -/
theorem store {o : Record N} {i : Fin N} (h : l.Knows P (o.insertedBy i)) {pc : PP}
    (hl : P.stored l.pc = false) (hs : P.stored pc = true) (hb : P.busy l.pc = true)
    (hb' : P.busy pc = true) (buf : SharedBuffer) :
    Producer.Knows P { l with pc := pc } ((o.insert i buf l.product).insertedBy i) := by
  have hp := h.busy hb
  refine ⟨h.nums, ?_, ?_, fun _ => hp, by simp [hb']⟩
  · rw [Record.insert_insertedBy, h.mine]
    simp [Places.made, hl, hs, List.take_add_one, hp]
  · have := index_lt hp
    simp only [Places.made, hs, Bool.toNat_true]
    omega

end Producer.Knows

namespace Consumer.Knows

variable {l l' : Consumer CP} {mine : List Char}

theorem isPrefix (h : l.Knows P mine) : mine <+: digits := h.mine ▸ List.take_prefix ..

theorem length (h : l.Knows P mine) : mine.length = P.gone l := by
  rw [h.mine, List.length_take]
  exact Nat.min_eq_left h.le

/-- Going on without an item removed or counted. -/
theorem move (h : l.Knows P mine) {pc : CP} (ht : P.taken pc = P.taken l.pc)
    (hs : P.seeks pc → P.seeks l.pc) (hd : P.done pc → P.done l.pc) :
    Consumer.Knows P { l with pc := pc } mine := by
  refine ⟨?_, ?_, fun h' => h.seeks (hs h'), fun h' => h.done (hd h')⟩
  · simpa only [Places.gone, ht] using h.mine
  · simpa only [Places.gone, ht] using h.le

theorem loop {again completed : CP} (hm : mine = digits.take l.cDepot.index)
    (hi : l.cDepot.index ≤ 10) (hagain : P.taken again = false)
    (hcompleted : P.taken completed = false) (hdone : P.done again = false)
    (hseeks : P.seeks completed = false) : (l.loop again completed).Knows P mine := by
  rw [Consumer.loop]
  split_ifs with h
  · refine ⟨?_, ?_, fun _ => ditoaChar_eq h _, by simp [hdone]⟩
    · simpa [Places.gone, hagain] using hm
    · simpa [Places.gone, hagain] using hi
  · refine ⟨?_, ?_, by simp [hseeks], fun _ => by simpa using (by omega : l.cDepot.index = 10)⟩
    · simpa [Places.gone, hcompleted] using hm
    · simpa [Places.gone, hcompleted] using hi

/-- Removing the item that is expected. -/
theorem remove {o : Record N} {j : Fin N} (h : l.Knows P (o.removedBy j)) {pc : CP} {c : Char}
    (hl : P.taken l.pc = false) (ht : P.taken pc = true) (hs : P.seeks l.pc = true)
    (hd : P.done pc = false) {buf : SharedBuffer} (he : buf.head = l.expectedItem) :
    Consumer.Knows P { l with product := c, pc := pc } ((o.remove j buf).removedBy j) := by
  have hp := h.seeks hs
  refine ⟨?_, ?_, fun _ => hp, by simp [hd]⟩
  · rw [Record.remove_removedBy, h.mine, he]
    simp [Places.gone, hl, ht, List.take_add_one, hp]
  · have := index_lt hp
    simp only [Places.gone, ht, Bool.toNat_true]
    omega

end Consumer.Knows

/-- What each child knows of the record. -/
def Places.Knows (P : Places PP CP) :
    (p : Child N) → Loc N PP CP p → SharedBuffer × Record N → Prop
  | .inl i, l, x => l.Knows P (x.2.insertedBy i)
  | .inr j, l, x => l.Knows P (x.2.removedBy j)

/-- Computations of others leave the items of a child alone. -/
theorem Places.Knows.frame {p q : Child N} (hq : q ≠ p) {l : Loc N PP CP p} {k : Loc N PP CP q}
    {x : SharedBuffer × Record N} (buf : SharedBuffer) (h : P.Knows q k x) :
    P.Knows q k (buf, P.note p l x.1 x.2) := by
  cases p with
  | inl i =>
      rw [note]
      split
      · cases q with
        | inl i' =>
            change k.Knows P ((x.2.insert i x.1 l.product).insertedBy i')
            rw [Record.insert_insertedBy_of_ne _ _ _ fun e => hq (by rw [e])]
            exact h
        | inr j => exact h
      · cases q <;> exact h
  | inr j =>
      rw [note]
      split
      · cases q with
        | inl i => exact h
        | inr j' =>
            change k.Knows P ((x.2.remove j x.1).removedBy j')
            rw [Record.remove_removedBy_of_ne _ _ fun e => hq (by rw [e])]
            exact h
      · cases q <;> exact h

section Reachable

variable {S L C : Type} [DecidableEq S] [DecidableEq L] [DecidableEq C]
  {π : Program (Child N) S L C (Loc N PP CP) SharedBuffer}
  {start : Threads (Child N) S L C (Loc N PP CP) SharedBuffer}
  {s : Threads (Child N) S L C (Loc N PP CP) (SharedBuffer × Record N)} {o : Record N}

/-- What the children know at first and in their calls and computations, they always know. -/
theorem Places.reachable_knows (init : ∀ p, P.Knows p (start.loc p) (start.mem, o))
    (call : ∀ p l l' c x, π p l = .call c l' → P.Knows p l x → P.Knows p l' x)
    (compute : ∀ s p f, ((π.noted P.note).system (start.noting o)).Reachable s →
      s.session.pending p = none → π p (s.loc p) = .compute f → P.Knows p (s.loc p) s.mem →
      P.Knows p (f s.mem.1).1 ((f s.mem.1).2, P.note p (s.loc p) s.mem.1 s.mem.2))
    (h : ((π.noted P.note).system (start.noting o)).Reachable s) (p : Child N) :
    P.Knows p (s.loc p) s.mem := by
  refine Threads.reachable_local (K := P.Knows) init (fun s p c l _ act => ?_)
    (fun s p f hr outside act hk => ?_) (fun s p f q _ _ act hq hk => ?_) h p
  · exact call p _ _ c s.mem (Program.noted_call.mp act)
  · obtain ⟨g, act', rfl⟩ := Program.noted_compute.mp act
    exact compute s p g hr outside act' hk
  · obtain ⟨g, -, rfl⟩ := Program.noted_compute.mp act
    exact hk.frame hq _

end Reachable

/-- The insertions and the removals add up. -/
theorem Places.sum_knows {loc : (p : Child N) → Loc N PP CP p} {x : SharedBuffer × Record N}
    (h : ∀ p, P.Knows p (loc p) x) :
    ∑ i, P.made (loc (producer i)) = x.2.inserted.length ∧
      ∑ j, P.gone (loc (consumer j)) = x.2.removed.length := by
  constructor
  · rw [← sum_length_itemsOf Entry.who Entry.item]
    exact Finset.sum_congr rfl fun i _ => (Producer.Knows.length (h (producer i))).symm
  · rw [← sum_length_itemsOf Entry.who Entry.item]
    exact Finset.sum_congr rfl fun j _ => (Consumer.Knows.length (h (consumer j))).symm

/-- When all children are through, every producer has inserted all digits, every consumer has
removed all digits, and nothing is left. -/
theorem Places.all_moved {loc : (p : Child N) → Loc N PP CP p} {x : SharedBuffer × Record N}
    (h : ∀ p, P.Knows p (loc p) x)
    (hp : ∀ i, P.busy (loc (producer i)).pc = false ∧ P.stored (loc (producer i)).pc = false)
    (hc : ∀ j, P.done (loc (consumer j)).pc = true ∧ P.taken (loc (consumer j)).pc = false) :
    (∀ i, x.2.insertedBy i = digits) ∧ (∀ j, x.2.removedBy j = digits) ∧ x.2.unconsumed = [] := by
  have made : ∀ i, P.made (loc (producer i)) = 10 := fun i => by
    have hk : (loc (producer i)).Knows P (x.2.insertedBy i) := h (producer i)
    rw [made, (hp i).2, hk.done (by simp [(hp i).1])]
    rfl
  have gone : ∀ j, P.gone (loc (consumer j)) = 10 := fun j => by
    have hk : (loc (consumer j)).Knows P (x.2.removedBy j) := h (consumer j)
    rw [gone, (hc j).2, hk.done (hc j).1]
    rfl
  refine ⟨fun i => ?_, fun j => ?_, ?_⟩
  · have hk : (loc (producer i)).Knows P (x.2.insertedBy i) := h (producer i)
    rw [hk.mine, made i]
    rfl
  · have hk : (loc (consumer j)).Knows P (x.2.removedBy j) := h (consumer j)
    rw [hk.mine, gone j]
    rfl
  · obtain ⟨hi, hr⟩ := sum_knows h
    have same : x.2.inserted.length = x.2.removed.length := by simp [← hi, ← hr, made, gone]
    rw [Record.unconsumed, ← same, List.drop_length]

/-- When the ring holds an item, the head is the next digit of some consumer. -/
theorem Places.exists_expecting {loc : (p : Child N) → Loc N PP CP p}
    {x : SharedBuffer × Record N} {first : ℕ → Char} (h : ∀ p, P.Knows p (loc p) x)
    (hf : x.2.Fits first x.1) (hs : x.2.removed.length < x.2.inserted.length) :
    ∃ j, digits[P.gone (loc (consumer j))]? = some x.1.head := by
  have inserted : ∀ i, itemsOf Entry.who Entry.item i x.2.inserted <+: digits := fun i =>
    Producer.Knows.isPrefix (h (producer i))
  have removed : ∀ j, itemsOf Entry.who Entry.item j x.2.removed <+: digits := fun j =>
    Consumer.Knows.isPrefix (h (consumer j))
  obtain ⟨j, hj⟩ := exists_next rfl digits_nodup inserted removed hf.order hs
  refine ⟨j, ?_⟩
  rw [← Consumer.Knows.length (h (consumer j)), ← (hf.head hs).1]
  exact hj

end DlxOs.Apps
