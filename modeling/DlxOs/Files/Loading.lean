import DlxOs.Files.Descriptors
import DlxOs.Files.ObjectFiles

/-!
# Loading the body of an object file

`ProcessFork` calls `ProcessGetFromFile` until it returns 0. On a file that the
traps treat as an ordinary one, each call delivers the bytes of some whole lines
and leaves the position at the next line.
-/

namespace DlxOs.Files

open Kernel (Halt)

variable {σ : Type} {T : Traps σ} {u fd : ℤ} {file : List Char} {At : ℕ → σ → Prop}
  {s s' : FsState σ} {k : ℕ} {a : BitVec 32} {l : Line} {lines : List Line}

/-- The calls of the loop in `ProcessFork`, until one returns 0. -/
inductive Loads (T : Traps σ) (fd : ℤ) : FsState σ → BitVec 32 → List Chunk → FsState σ → Prop
  | done {s s' a c} (call : processGetFromFile T s fd a 100 = .ok (c, s')) (zero : c.nbytes = 0) :
      Loads T fd s a [] s'
  | more {s s₁ s' a c chunks} (call : processGetFromFile T s fd a 100 = .ok (c, s₁))
      (nonzero : c.nbytes ≠ 0) (rest : Loads T fd s₁ c.addr chunks s') :
      Loads T fd s a (c :: chunks) s'

/-- The bytes of a chunk at the addresses below that of the chunk. -/
def Chunk.placed (c : Chunk) : List (BitVec 32 × BitVec 8) :=
  place (c.addr - BitVec.ofInt 32 c.nbytes) c.buf

/-- The calls come to an end, and have delivered the bytes of the lines, at most 100 by a call. -/
def Delivers (T : Traps σ) (s : FsState σ) (fd : ℤ) (lines : List Line) : Prop :=
  (∃ chunks s', Loads T fd s 0 chunks s') ∧
    ∀ chunks s', Loads T fd s 0 chunks s' → chunks.flatMap Chunk.placed = meaning 0 lines ∧
      ∀ c ∈ chunks, c.nbytes = c.buf.length ∧ c.buf.length ≤ 100

/-- The read and seek traps treat `u` as an open file with those characters; `At k` holds of the
states in which its position is `k`. -/
structure Ordinary (T : Traps σ) (u : ℤ) (file : List Char) (At : ℕ → σ → Prop) : Prop where
  tell : ∀ k r, At k r → (T.lseek u 0 fsSeekCur r).1 = k ∧ At k (T.lseek u 0 fsSeekCur r).2
  seek : ∀ k r (j : ℕ), At k r → j ≤ file.length →
    (T.lseek u j fsSeekSet r).1 = j ∧ At j (T.lseek u j fsSeekSet r).2
  read : ∀ k r (n : ℕ), At k r → (T.read u n r).1 =
      ((((file.drop k).take n).length : ℤ), (file.drop k).take n) ∧
    At (k + ((file.drop k).take n).length) (T.read u n r).2

/-- The descriptor stands for the file `u`, at position `k`. -/
structure Reading (At : ℕ → σ → Prop) (u fd : ℤ) (s : FsState σ) (k : ℕ) : Prop where
  valid : ∃ x, fdValid s fd = some x ∧ (s.openfiles x).fs = 0 ∧ (s.openfiles x).u = u
  position : At k s.simulator

namespace Reading

theorem seek (h : Reading At u fd s k) (offset whence : ℤ) :
    fsSeek T s fd offset whence = ((T.lseek u offset whence s.simulator).1,
      { s with simulator := (T.lseek u offset whence s.simulator).2 }) := by
  obtain ⟨x, hx, hfs, hu⟩ := h.valid
  unfold fsSeek
  rw [hx]
  simp only [hfs, hu]
  rfl

theorem read (h : Reading At u fd s k) (n : ℤ) :
    fsRead T s fd n = ((T.read u n s.simulator).1,
      { s with simulator := (T.read u n s.simulator).2 }) := by
  obtain ⟨x, hx, hfs, hu⟩ := h.valid
  unfold fsRead
  rw [hx]
  simp only [hfs, hu]
  rfl

/-- A trap changes the position only. -/
theorem moved (h : Reading At u fd s k) {j : ℕ} {r : σ} (hr : At j r) :
    Reading At u fd { s with simulator := r } j := ⟨h.valid, hr⟩

end Reading

/-- The start of a call: where the file is, and the characters of the window. -/
theorem window_read (o : Ordinary T u file At) (h : Reading At u fd s k) (n : ℕ) :
    ∃ s₁ s₂, fsSeek T s fd 0 fsSeekCur = ((k : ℤ), s₁) ∧
      fsRead T s₁ fd n = (((((file.drop k).take n).length : ℤ), (file.drop k).take n), s₂) ∧
      Reading At u fd s₂ (k + ((file.drop k).take n).length) := by
  obtain ⟨htell, hat⟩ := o.tell k _ h.position
  let s₁ : FsState σ := { s with simulator := (T.lseek u 0 fsSeekCur s.simulator).2 }
  have h₁ : Reading At u fd s₁ k := h.moved hat
  obtain ⟨hread, hat'⟩ := o.read k _ n h₁.position
  refine ⟨s₁, { s₁ with simulator := (T.read u n s₁.simulator).2 }, ?_, ?_, h₁.moved hat'⟩
  · rw [h.seek, htell]
  · rw [h₁.read, hread]

/-- A call, with the window that it reads. -/
theorem processGetFromFile_window {w : List Char} {s₁ s₂ : FsState σ} {max : ℕ}
    (e₁ : fsSeek T s fd 0 fsSeekCur = ((k : ℤ), s₁))
    (e₂ : fsRead T s₁ fd (min (max * 2) 200 : ℕ) = (((w.length : ℤ), w), s₂)) :
    processGetFromFile T s fd a max = if w = [] then .ok (⟨0, [], a⟩, s₂)
      else if upToNewline w = [] then .error .wildAccess
      else
        let localbuf := cString (upToNewline w ++ ['Z'])
        let p := Progress.loop localbuf.length ⟨localbuf, a, []⟩
        .ok (⟨p.bytes.length, p.bytes, p.addr⟩,
          (fsSeek T s₂ fd (k + (localbuf.length - p.lpos.length)) fsSeekSet).2) := by
  unfold processGetFromFile
  rw [e₁]
  simp only
  rw [e₂]
  cases w with
  | nil => rfl
  | cons c w =>
      have hpos : ¬ (((c :: w).length : ℕ) : ℤ) ≤ 0 := by
        rw [List.length_cons]
        omega
      simp only [if_neg hpos, Int.toNat_natCast, List.take_length]
      rfl

/-- At the end of the file a call returns 0. -/
theorem processGetFromFile_end (o : Ordinary T u file At) (h : Reading At u fd s k)
    (hk : file.drop k = []) :
    ∃ s', processGetFromFile T s fd a 100 = .ok (⟨0, [], a⟩, s') := by
  obtain ⟨s₁, s₂, e₁, e₂, -⟩ := window_read o h 200
  refine ⟨s₂, ?_⟩
  rw [processGetFromFile_window e₁ e₂, hk]
  rfl

/-- A call delivers the bytes of the next line, and of lines without an address that follow. -/
theorem processGetFromFile_lines (o : Ordinary T u file At) (h : Reading At u fd s k)
    (hk : file.drop k = text (l :: lines)) (hshort : l.text.length ≤ 200) :
    ∃ taken left s', lines = taken ++ left ∧ (∀ l' ∈ taken, l'.address = []) ∧
      processGetFromFile T s fd a 100 = .ok (⟨((l :: taken).flatMap Line.bytes).length,
        (l :: taken).flatMap Line.bytes,
        l.start a + BitVec.ofNat 32 ((l :: taken).flatMap Line.bytes).length⟩, s') ∧
      Reading At u fd s' (k + (text (l :: taken)).length) ∧
      ((l :: taken).flatMap Line.bytes).length ≤ 100 := by
  obtain ⟨whole, rest, part, hwhole, hw, hpart, hne⟩ := take_text (l :: lines) 200
  have hwne : whole ≠ [] := by
    refine hne (fun l' hl' => ?_) (List.cons_ne_nil l lines)
    obtain rfl := Option.some.inj hl'
    exact hshort
  obtain ⟨l', more, rfl⟩ := List.exists_cons_of_ne_nil hwne
  obtain ⟨rfl, rfl⟩ := List.cons.inj hwhole
  obtain ⟨s₁, s₂, e₁, e₂, h₂⟩ := window_read o h 200
  rw [hk, hw] at e₂ h₂
  have htext : text (l :: more) ≠ [] := by simp [text, Line.text]
  have hfuel : more.length < (text (l :: more) ++ ['Z']).length := by
    have := length_le_text (l :: more)
    rw [List.length_append]
    rw [List.length_cons] at this
    omega
  obtain ⟨taken, left, rfl, htaken, e⟩ := loop_reads (l := l) (a := a) hfuel
  have hsplit : text (l :: (taken ++ left)) = text (l :: taken) ++ text left := by simp [text]
  have hlen : (text (l :: taken)).length ≤ 200 := by
    have hle : (text (l :: (taken ++ left)) ++ part).length ≤ 200 := by
      rw [← hw]
      exact List.length_take_le ..
    rw [List.length_append, hsplit, List.length_append] at hle
    omega
  refine ⟨taken, left ++ rest, (fsSeek T s₂ fd (k + (text (l :: taken)).length : ℕ) fsSeekSet).2,
    List.append_assoc .., htaken, ?_, ?_, ?_⟩
  · rw [processGetFromFile_window e₁ e₂, if_neg (List.append_ne_nil_of_left_ne_nil htext part),
      upToNewline_text (List.cons_ne_nil l _) hpart, if_neg htext, cString_text]
    simp only [e]
    have hpos : (k : ℤ) + (((text (l :: (taken ++ left)) ++ ['Z']).length : ℤ) -
        ((text left ++ ['Z']).length : ℤ)) = ((k + (text (l :: taken)).length : ℕ) : ℤ) := by
      rw [hsplit]
      simp only [List.length_append]
      push_cast
      ring
    rw [hpos]
  · rw [h₂.seek]
    refine h₂.moved (o.seek _ _ _ h₂.position ?_).2
    have hle : (text (l :: taken)).length ≤ (file.drop k).length := by
      rw [hk]
      simp [text]
    rw [List.length_drop] at hle
    have : 0 < (text (l :: taken)).length := List.length_pos_iff.mpr (by simp [text, Line.text])
    omega
  · have := length_bytes_le (l :: taken)
    omega

theorem Loads.deterministic {s₁ s₂ : FsState σ} {chunks chunks' : List Chunk}
    (h : Loads T fd s a chunks s₁) (h' : Loads T fd s a chunks' s₂) :
    chunks = chunks' ∧ s₁ = s₂ := by
  induction h generalizing chunks' s₂ with
  | done call zero =>
      cases h' with
      | done call' zero' => exact ⟨rfl, (Prod.mk.inj (Except.ok.inj (call.symm.trans call'))).2⟩
      | more call' nonzero' rest' =>
          obtain ⟨rfl, -⟩ := Prod.mk.inj (Except.ok.inj (call.symm.trans call'))
          exact absurd zero nonzero'
  | more call nonzero rest ih =>
      cases h' with
      | done call' zero' =>
          obtain ⟨rfl, -⟩ := Prod.mk.inj (Except.ok.inj (call.symm.trans call'))
          exact absurd zero' nonzero
      | more call' nonzero' rest' =>
          obtain ⟨rfl, rfl⟩ := Prod.mk.inj (Except.ok.inj (call.symm.trans call'))
          obtain ⟨rfl, rfl⟩ := ih rest'
          exact ⟨rfl, rfl⟩

theorem Chunk.placed_end (a : BitVec 32) (bytes : List (BitVec 8)) :
    Chunk.placed ⟨bytes.length, bytes, a + BitVec.ofNat 32 bytes.length⟩ = place a bytes := by
  unfold Chunk.placed
  rw [BitVec.ofInt_natCast, BitVec.add_sub_cancel]

/-- From the start of a line, the calls deliver the lines that are left. -/
theorem loads_lines (o : Ordinary T u file At) (h : Reading At u fd s k)
    (hk : file.drop k = text lines) (hshort : ∀ l ∈ lines, l.text.length ≤ 200) :
    ∃ chunks s', Loads T fd s a chunks s' ∧ chunks.flatMap Chunk.placed = meaning a lines ∧
      ∀ c ∈ chunks, c.nbytes = c.buf.length ∧ c.buf.length ≤ 100 := by
  induction hn : lines.length using Nat.strong_induction_on generalizing s k a lines with
  | _ n ih =>
  cases lines with
  | nil =>
      obtain ⟨s', call⟩ := processGetFromFile_end (a := a) o h hk
      exact ⟨[], s', .done call rfl, rfl, by simp⟩
  | cons l lines =>
      obtain ⟨taken, left, s₁, rfl, htaken, call, h₁, hmax⟩ :=
        processGetFromFile_lines (a := a) o h hk (hshort l (List.mem_cons_self ..))
      have hk₁ : file.drop (k + (text (l :: taken)).length) = text left := by
        rw [← List.drop_drop, hk, show text (l :: (taken ++ left)) =
          text (l :: taken) ++ text left by simp [text], List.drop_left]
      obtain ⟨chunks, s', loads, hplaced, hsizes⟩ := ih left.length (by
        rw [← hn, List.length_cons, List.length_append]
        omega) h₁ hk₁ (fun l' hl' => hshort l' (by simp [hl'])) rfl
      refine ⟨_ :: chunks, s', .more call ?_ loads, ?_, ?_⟩
      · have : (l :: taken).flatMap Line.bytes ≠ [] := by simp [bytes_ne_nil]
        exact fun hz => this (List.length_eq_zero_iff.mp (Int.natCast_eq_zero.mp hz))
      · rw [List.flatMap_cons, hplaced, Chunk.placed_end, meaning, meaning_continues htaken,
          Line.next, List.flatMap_cons, place_append, List.length_append, BitVec.ofNat_add,
          BitVec.add_assoc, List.append_assoc]
      · rintro c (_ | ⟨_, hc⟩)
        · exact ⟨rfl, hmax⟩
        · exact hsizes c hc

/-- The calls from the start of the body deliver each byte of the body at its address. -/
theorem body_delivered (o : Ordinary T u file At) {header : List Char}
    (h : Reading At u fd s header.length) (hbody : file = header ++ text lines)
    (hshort : ∀ l ∈ lines, l.text.length ≤ 200) : Delivers T s fd lines := by
  have hk : file.drop header.length = text lines := by rw [hbody, List.drop_left]
  obtain ⟨chunks, s', loads, hplaced, hsizes⟩ := loads_lines (a := 0) o h hk hshort
  refine ⟨⟨chunks, s', loads⟩, fun chunks' s'' loads' => ?_⟩
  obtain ⟨rfl, -⟩ := loads.deterministic loads'
  exact ⟨hplaced, hsizes⟩

/-- A file of 13 characters, and its position. -/
def smallFile : List Char := "x\nfe: 0a\tb1\n:07\n".toList

def smallTraps : Traps ℕ where
  «open» _ _ k := (3, k)
  close _ k := (1, k)
  read _ n k := ((((smallFile.drop k).take n.toNat).length, (smallFile.drop k).take n.toNat),
    k + ((smallFile.drop k).take n.toNat).length)
  write _ _ _ k := (-1, k)
  lseek _ offset whence k := if whence = fsSeekCur then (k + offset, (k + offset).toNat)
    else (offset, offset.toNat)

/-- Two lines, the first one with an address. -/
def smallLines : List Line :=
  [⟨[15, 14], [⟨[false], 0, 10⟩, ⟨[true], 11, 1⟩], by simp, []⟩, ⟨[], [⟨[], 0, 7⟩], by simp, []⟩]

theorem body_delivered_small : Delivers smallTraps ⟨fun _ => ⟨0, 1, 3⟩, 2⟩ 1 smallLines := by
  have o : Ordinary smallTraps 3 smallFile fun k r => r = k := by
    refine ⟨?_, ?_, ?_⟩
    · rintro k _ rfl
      simp [smallTraps]
    · rintro k _ j rfl -
      simp [smallTraps, fsSeekSet, fsSeekCur]
    · rintro k _ n rfl
      exact ⟨rfl, rfl⟩
  have h : Reading (fun k r => r = k) 3 1 (⟨fun _ => ⟨0, 1, 3⟩, 2⟩ : FsState ℕ)
      "x\n".toList.length := ⟨⟨⟨1, by decide⟩, by decide, rfl, rfl⟩, by decide⟩
  exact body_delivered o h (by decide) (by decide +kernel)

end DlxOs.Files
