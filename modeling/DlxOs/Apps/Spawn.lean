import DlxOs.Apps.Misc
import DlxOs.Library.Interleavings
import DlxOs.Library.Ring

/-!
# The ring buffer programs

What the programs with producers and consumers share: the page with the ring
buffer, the depots, and the items that the children move. A record of the
items inserted and removed is kept beside the page; `Record.Fits` says how the
two go together.
-/

namespace DlxOs.Apps

open Interleavings

/-- `BUFFER_SIZE` -/
def bufferSize : ℕ := 32

/-- The part of the shared page that changes. -/
structure SharedBuffer where
  wIdx : ℕ
  rIdx : ℕ
  buffer : ℕ → Char

namespace SharedBuffer

/-- A page of zeros. -/
def zero : SharedBuffer := ⟨0, 0, fun _ => nul⟩

/-- The item in the head slot. -/
def head (buf : SharedBuffer) : Char := buf.buffer buf.rIdx

/-- The item goes to the slot of the write index, and the index goes on. -/
def store (buf : SharedBuffer) (product : Char) : SharedBuffer :=
  { buf with
    buffer := Function.update buf.buffer buf.wIdx product
    wIdx := (buf.wIdx + 1) % bufferSize }

/-- The read index goes on. -/
def advance (buf : SharedBuffer) : SharedBuffer :=
  { buf with rIdx := (buf.rIdx + 1) % bufferSize }

/-- The items in the slots from the read index up to the write index. -/
def contents (buf : SharedBuffer) : List Char :=
  Ring.contents bufferSize buf.wIdx buf.rIdx buf.buffer

end SharedBuffer

/-- The numbers a child has or has stored, and how many of them are done. -/
structure Depot where
  index : ℕ
  nums : List Char

/-- A producer's depot holds the digits, a consumer's is empty. -/
def Depot.full : Depot := ⟨0, digits⟩

def Depot.empty : Depot := ⟨0, List.replicate 10 'X'⟩

/-- The number at the index. -/
def Depot.item (d : Depot) : Char := d.nums[d.index]?.getD nul

def Depot.advance (d : Depot) : Depot := { d with index := d.index + 1 }

def Depot.put (d : Depot) (product : Char) : Depot :=
  { d with nums := d.nums.set d.index product }

/-- The producers and the consumers that `makeprocs` creates. -/
abbrev Child (N : ℕ) := Fin N ⊕ Fin N

abbrev producer {N : ℕ} (i : Fin N) : Child N := .inl i

abbrev consumer {N : ℕ} (j : Fin N) : Child N := .inr j

/-- An item that a child put into a slot or took from it. -/
structure Entry (N : ℕ) where
  who : Fin N
  slot : ℕ
  item : Char

/-- The items inserted and removed so far, in order. -/
structure Record (N : ℕ) where
  inserted : List (Entry N)
  removed : List (Entry N)

variable {N : ℕ}

namespace Record

def new (N : ℕ) : Record N := ⟨[], []⟩

def insert (o : Record N) (i : Fin N) (buf : SharedBuffer) (product : Char) : Record N :=
  { o with inserted := o.inserted ++ [⟨i, buf.wIdx, product⟩] }

def remove (o : Record N) (j : Fin N) (buf : SharedBuffer) : Record N :=
  { o with removed := o.removed ++ [⟨j, buf.rIdx, buf.head⟩] }

/-- The items that producer `i` inserted. -/
def insertedBy (o : Record N) (i : Fin N) : List Char := itemsOf Entry.who Entry.item i o.inserted

/-- The items that consumer `j` removed. -/
def removedBy (o : Record N) (j : Fin N) : List Char := itemsOf Entry.who Entry.item j o.removed

/-- The items inserted and not yet removed. -/
def unconsumed (o : Record N) : List (Entry N) := o.inserted.drop o.removed.length

@[simp] theorem insert_removed (o : Record N) (i : Fin N) (buf : SharedBuffer) (c : Char) :
    (o.insert i buf c).removed = o.removed := rfl

@[simp] theorem remove_inserted (o : Record N) (j : Fin N) (buf : SharedBuffer) :
    (o.remove j buf).inserted = o.inserted := rfl

@[simp] theorem insert_inserted_length (o : Record N) (i : Fin N) (buf : SharedBuffer) (c : Char) :
    (o.insert i buf c).inserted.length = o.inserted.length + 1 := by
  simp [insert]

@[simp] theorem remove_removed_length (o : Record N) (j : Fin N) (buf : SharedBuffer) :
    (o.remove j buf).removed.length = o.removed.length + 1 := by
  simp [remove]

theorem insert_insertedBy (o : Record N) (i : Fin N) (buf : SharedBuffer) (c : Char) :
    (o.insert i buf c).insertedBy i = o.insertedBy i ++ [c] := by
  rw [insertedBy, insert, itemsOf_append, itemsOf_self Entry.who Entry.item i _ rfl]
  rfl

theorem insert_insertedBy_of_ne (o : Record N) {i k : Fin N} (buf : SharedBuffer) (c : Char)
    (h : i ≠ k) : (o.insert i buf c).insertedBy k = o.insertedBy k := by
  rw [insertedBy, insert, itemsOf_append, itemsOf_of_ne Entry.who Entry.item k _ h,
    List.append_nil]
  rfl

theorem remove_removedBy (o : Record N) (j : Fin N) (buf : SharedBuffer) :
    (o.remove j buf).removedBy j = o.removedBy j ++ [buf.head] := by
  rw [removedBy, remove, itemsOf_append, itemsOf_self Entry.who Entry.item j _ rfl]
  rfl

theorem remove_removedBy_of_ne (o : Record N) {j k : Fin N} (buf : SharedBuffer) (h : j ≠ k) :
    (o.remove j buf).removedBy k = o.removedBy k := by
  rw [removedBy, remove, itemsOf_append, itemsOf_of_ne Entry.who Entry.item k _ h,
    List.append_nil]
  rfl

/-- The ring holds the items recorded, and those removed are the first ones inserted. -/
structure Fits (o : Record N) (first : ℕ → Char) (buf : SharedBuffer) : Prop where
  ring : Ring.Holds bufferSize first buf.wIdx buf.rIdx buf.buffer (o.inserted.map Entry.item)
    o.removed.length
  order : o.removed.map Entry.item <+: o.inserted.map Entry.item
  slots : ∀ n e, o.inserted[n]? = some e → e.slot = n % bufferSize

variable {first : ℕ → Char} {o : Record N} {buf : SharedBuffer}

theorem Fits.start (first : ℕ → Char) : (new N).Fits first ⟨0, 0, first⟩ := by
  refine ⟨.start _ _, List.prefix_rfl, fun n e h => ?_⟩
  simp [new] at h

theorem Fits.le (h : o.Fits first buf) : o.removed.length ≤ o.inserted.length := by
  simpa using h.ring.taken_le

theorem Fits.fits (h : o.Fits first buf) : o.inserted.length ≤ o.removed.length + bufferSize := by
  simpa using h.ring.fits

/-- A store into a ring that is not full keeps the record. -/
theorem Fits.store (h : o.Fits first buf) (hf : o.inserted.length < o.removed.length + bufferSize)
    (i : Fin N) (c : Char) : (o.insert i buf c).Fits first (buf.store c) := by
  constructor
  · have := h.ring.write (by simpa using hf) c
    simpa [insert, SharedBuffer.store] using this
  · simpa [insert] using h.order.trans (List.prefix_append _ [c])
  · intro n e he
    rw [insert] at he
    rcases Nat.lt_or_ge n o.inserted.length with hn | hn
    · rw [List.getElem?_append_left hn] at he
      exact h.slots n e he
    · rw [List.getElem?_append_right hn] at he
      obtain ⟨hz, rfl⟩ : n - o.inserted.length = 0 ∧ ⟨i, buf.wIdx, c⟩ = e := by
        cases hd : n - o.inserted.length with
        | zero => simpa [hd] using he
        | succ d => simp [hd] at he
      obtain rfl : n = o.inserted.length := by omega
      simpa using h.ring.w_eq

/-- A removal from a ring that is not empty keeps the record. -/
theorem Fits.remove (h : o.Fits first buf) (hn : o.removed.length < o.inserted.length) (j : Fin N) :
    (o.remove j buf).Fits first buf.advance := by
  have hhead := h.ring.head (by simpa using hn)
  refine ⟨?_, ?_, h.slots⟩
  · have := h.ring.take (by simpa using hn)
    simpa [Record.remove, SharedBuffer.advance] using this
  · have hm := List.prefix_iff_eq_take.mp h.order
    rw [List.length_map] at hm
    have hlt : o.removed.length < (o.inserted.map Entry.item).length := by simpa using hn
    rw [List.getElem?_eq_getElem hlt] at hhead
    have : (o.remove j buf).removed.map Entry.item =
        (o.inserted.map Entry.item).take (o.removed.length + 1) := by
      rw [← List.take_append_getElem hlt, ← hm, Option.some.inj hhead]
      simp [Record.remove, SharedBuffer.head]
    rw [this]
    exact List.take_prefix ..

/-- The slots of unconsumed items are not the slot of the write index. -/
theorem Fits.unconsumed_slot (h : o.Fits first buf)
    (hf : o.inserted.length < o.removed.length + bufferSize) :
    ∀ e ∈ o.unconsumed, e.slot ≠ buf.wIdx := by
  intro e he
  obtain ⟨n, hn⟩ := List.mem_iff_getElem?.mp he
  rw [unconsumed, List.getElem?_drop] at hn
  have hlt : o.removed.length + n < o.inserted.length := by
    by_contra hge
    rw [List.getElem?_eq_none (by omega)] at hn
    cases hn
  rw [h.slots _ e hn]
  exact h.ring.slot_ne_write (by simpa using hf) (by omega) (by simpa using hlt)

/-- The head slot holds the first item that has not been removed. -/
theorem Fits.head (h : o.Fits first buf) (hn : o.removed.length < o.inserted.length) :
    o.inserted[o.removed.length].item = buf.head ∧
      o.inserted[o.removed.length].slot = buf.rIdx := by
  constructor
  · have := h.ring.head (by simpa using hn)
    rw [List.getElem?_map, List.getElem?_eq_getElem hn] at this
    exact Option.some.inj this
  · rw [h.ring.r_eq]
    exact h.slots _ _ (List.getElem?_eq_getElem hn)

end Record

/-! ### A ring with a slot left -/

/-- One slot of the ring is always left. -/
structure RingOk (first : ℕ → Char) (x : SharedBuffer × Record N) : Prop where
  fits : x.2.Fits first x.1
  lt : x.2.inserted.length < x.2.removed.length + bufferSize

/-- The ring has room for an item. -/
def Room (o : Record N) : Prop := o.inserted.length + 1 < o.removed.length + bufferSize

/-- The ring holds an item. -/
def Stocked (o : Record N) : Prop := o.removed.length < o.inserted.length

namespace RingOk

variable {first : ℕ → Char} {x : SharedBuffer × Record N}

theorem start (first : ℕ → Char) : RingOk first (⟨0, 0, first⟩, .new N) :=
  ⟨.start first, by simp [Record.new, bufferSize]⟩

theorem room_iff (h : RingOk first x) : Room x.2 ↔ (x.1.wIdx + 1) % bufferSize ≠ x.1.rIdx := by
  have := h.fits.ring.full_iff (by simpa using h.lt)
  have hlt := h.lt
  rw [List.length_map] at this
  rw [Room, ne_eq, this]
  omega

theorem stocked_iff (h : RingOk first x) : Stocked x.2 ↔ x.1.wIdx ≠ x.1.rIdx := by
  have := h.fits.ring.empty_iff (by simpa using h.lt)
  have hle := h.fits.le
  rw [List.length_map] at this
  rw [Stocked, ne_eq, this]
  omega

theorem store (h : RingOk first x) (hr : Room x.2) (i : Fin N) (c : Char) :
    RingOk first (x.1.store c, x.2.insert i x.1 c) ∧ Stocked (x.2.insert i x.1 c) := by
  have hle := h.fits.le
  rw [Room] at hr
  refine ⟨⟨h.fits.store h.lt i c, ?_⟩, ?_⟩
  · simpa using hr
  · rw [Stocked]
    simp
    omega

theorem remove (h : RingOk first x) (hs : Stocked x.2) (j : Fin N) :
    RingOk first (x.1.advance, x.2.remove j x.1) ∧ Room (x.2.remove j x.1) := by
  have hlt := h.lt
  refine ⟨⟨h.fits.remove hs j, ?_⟩, ?_⟩
  · simp
    omega
  · rw [Room]
    simp
    omega

theorem contents_eq (h : RingOk first x) : x.1.contents = x.2.unconsumed.map Entry.item := by
  rw [Record.unconsumed, List.map_drop]
  exact h.fits.ring.contents_eq (by simpa using h.lt)

theorem unconsumed_lt (h : RingOk first x) : x.2.unconsumed.length < bufferSize := by
  have hlt := h.lt
  have hle := h.fits.le
  rw [Record.unconsumed, List.length_drop]
  omega

theorem index_lt (h : RingOk first x) : x.1.wIdx < bufferSize ∧ x.1.rIdx < bufferSize := by
  rw [h.fits.ring.w_eq, h.fits.ring.r_eq]
  exact ⟨Nat.mod_lt _ (by decide), Nat.mod_lt _ (by decide)⟩

end RingOk

end DlxOs.Apps
