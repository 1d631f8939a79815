import DlxOs.Files.FailedForks
import DlxOs.Files.Safety

/-!
# Loading a program

`ProcessFork` reads the header line of an object file and calls
`ProcessGetFromFile` until a call delivers nothing. For the files of a
simulator, where the two stay inside their buffers, and that they do not depend
on what these held before.
-/

namespace DlxOs.Files

open Kernel (Halt ok_bind)

variable {σ α : Type} {T : Traps σ} {u fd : ℤ} {file name : List Char} {At : ℕ → σ → Prop}
  {s : FsState σ} {k k' n : ℕ} {w : List Char}

/-- The files of a simulator by their names: one that is opened is at its start, and a seek to a
place in front of it is refused. -/
structure Disk (T : Traps σ) where
  file : List Char → List Char
  /-- The descriptor stands for the file of that name, at that position. -/
  At : List Char → ℤ → ℕ → σ → Prop
  opens : ∀ name r, 0 ≤ (T.open name fsModeRead r).1 →
    At name (T.open name fsModeRead r).1 0 (T.open name fsModeRead r).2
  ordinary : ∀ name u, Ordinary T u (file name) (At name u)
  seek_front : ∀ name u k r (j : ℤ), At name u k r → j < 0 → At name u k (T.lseek u j fsSeekSet r).2

/-- Every name is that of this file. -/
def textDisk (file : List Char) : Disk (textTraps file) where
  file _ := file
  At _ _ k r := r = k
  opens _ _ _ := rfl
  ordinary _ _ := textTraps_ordinary file
  seek_front _ _ _ _ j h hj := by
    rw [← h]
    simp [textTraps, fsSeekSet, fsSeekCur, hj]

/-- The loop of `ProcessFork` over `ProcessGetFromFile`, with what is done with the bytes of a call
and with its remaining rounds. What `localbuf` holds before each call is given. -/
def loadLoop (T : Traps σ) (localbuf : ℕ → Fin 204 → Char) (place : Chunk → α → Except Halt α)
    (fd : ℤ) : ℕ → FsState σ → BitVec 32 → α → Except Halt (α × FsState σ)
  | 0, _, _, _ => .error .diverged
  | rounds + 1, s, addr, a => do
    let (c, s) ← Raw.processGetFromFile T (List.ofFn (localbuf rounds)) s fd addr 100
    if c.nbytes > 0 then loadLoop T localbuf place fd rounds s c.addr (← place c a)
    else return (a, s)

/-! ### What decides about the file -/

/-- The text `start:` is found in the first 100 bytes. -/
def Starts (file : List Char) : Prop :=
  100 ≤ file.length ∧ "start:".toList <:+: cString (file.take 100)

/-- Where the first call starts to read. -/
def bodyStart (file : List Char) : ℕ :=
  if '\n' ∈ cString (file.take 100) then
    ((cString (file.take 100)).takeWhile (· ≠ '\n')).length + 1
  else 100

/-- From position `k` the calls come to position `k'`. -/
inductive Comes (file : List Char) : ℕ → ℕ → Prop
  | here (k : ℕ) : Comes file k k
  | next {k k' : ℕ} (delivers : (finish (window file k 100) 0).bytes ≠ [])
      (rest : Comes file (k + advance (window file k 100) 0) k') : Comes file k k'

/-- What a call reads is empty or has a newline. -/
def LineEnds (file : List Char) (k : ℕ) : Prop :=
  window file k 100 = [] ∨ '\n' ∈ window file k 100

/-- Every call reads nothing or a newline. -/
def LinesEnd (file : List Char) : Prop := ∀ k, Comes file (bodyStart file) k → LineEnds file k

/-! ### The header line -/

/-- What is opened is at its start. -/
theorem Disk.reads (D : Disk T) (s : FsState σ) (name : List Char) :
    Opens T (openTrap T s name).1 (D.At name (openTrap T s name).1) s name := by
  rintro ⟨y, hy, hfs⟩
  cases hfree : freeSlot s with
  | none =>
    rw [fsOpen_full hfree] at hy
    cases hy
  | some x =>
    cases hname : isDlx name with
    | true =>
      rw [fsOpen_dlx hfree hname] at hy hfs
      obtain ⟨hx, -⟩ := fdValid_eq_some.mp hy
      obtain rfl : y = x := Fin.ext (by omega)
      simp [FsState.setFile] at hfs
    | false =>
      have ho := fsOpen_unix (T := T) hfree hname
      by_cases hopen : (openTrap T s name).1 < 0
      · rw [if_pos hopen] at ho
        rw [ho] at hy
        obtain ⟨hx, hpos, -⟩ := fdValid_eq_some.mp hy
        simp only at hx
        omega
      · rw [if_neg hopen] at ho
        rw [ho] at hy ⊢
        obtain ⟨hx, -⟩ := fdValid_eq_some.mp hy
        obtain rfl : y = x := Fin.ext (by simp only at hx; omega)
        refine ⟨⟨y, hy, ?_, ?_⟩, D.opens name _ (not_lt.mp hopen)⟩
        · simp
        · simp

theorem firstLine_eq (stack : Frame) (l : List Char) : firstLine stack l =
    if '\n' ∈ l then (((l.takeWhile (· ≠ '\n')).length + 1 : ℕ) : ℤ) else 1 - stack.address := by
  unfold firstLine
  split_ifs with h
  · have hlen := congrArg List.length (List.takeWhile_append_dropWhile (p := (· ≠ '\n')) (l := l))
    rw [List.length_append] at hlen
    rw [dindex_eq_some h]
    simp only
    omega
  · rw [dindex_eq_none.mpr h]

theorem bodyStart_le (file : List Char) : bodyStart file ≤ 100 := by
  unfold bodyStart
  split_ifs with h
  · obtain ⟨rest, hrest, -⟩ := dropWhile_found h
    have hlen := congrArg List.length
      (List.takeWhile_append_dropWhile (p := (· ≠ '\n')) (l := cString (file.take 100)))
    have hstring : (cString (file.take 100)).length ≤ (file.take 100).length :=
      (List.takeWhile_prefix _).length_le
    have htake := List.length_take_le 100 file
    rw [List.length_append, hrest, List.length_cons] at hlen
    omega
  · exact le_rfl

/-- A file that is not opened, too short or without the text `start:` is refused. -/
theorem codeInfo_refused (D : Disk T) (h : HeaderRead T s name (D.file name))
    (hno : ¬ (OpensFile T s name ∧ Starts (D.file name))) :
    ∃ fd s', fd < 0 ∧
      ∀ address, Raw.processGetCodeInfo T address s name = .ok ((fd, none), s') := by
  have o := D.ordinary name (openTrap T s name).1
  by_cases hunread : ¬ OpensFile T s name ∨ (D.file name).length < 100
  · exact codeInfo_unread o (D.reads s name) hunread
  · push Not at hunread
    obtain ⟨hfile, hsize⟩ := hunread
    have hends := (h.resolve_left (not_not.mpr hfile)).resolve_left (not_lt.mpr hsize)
    have hstart : ¬ "start:".toList <:+: cString ((D.file name).take 100) :=
      fun hstart => hno ⟨hfile, hsize, hstart⟩
    obtain ⟨fd, s', -, -, hrun⟩ := codeInfo_header o (D.reads s name) hfile hsize
    refine ⟨-1, s', by decide, fun address => ?_⟩
    rw [hrun, header_ends ⟨address, []⟩ hends, List.append_nil, ok_bind, header,
      (dstrstr_eq_none start_ne_nil).mpr hstart]

/-- A file with a header line is at the start of its body afterwards. -/
theorem codeInfo_accepted (D : Disk T) {address : ℤ} (haddress : 1 < address)
    (h : HeaderRead T s name (D.file name)) (hfile : OpensFile T s name)
    (hstart : Starts (D.file name)) :
    ∃ u fd info s', Raw.processGetCodeInfo T address s name = .ok ((fd, some info), s') ∧ 0 ≤ fd ∧
      Reading (D.At name u) u fd s' (bodyStart (D.file name)) := by
  have o := D.ordinary name (openTrap T s name).1
  obtain ⟨hsize, hstart⟩ := hstart
  have hends := (h.resolve_left (not_not.mpr hfile)).resolve_left (not_lt.mpr hsize)
  obtain ⟨fd, s', hfd, hreading, hrun⟩ := codeInfo_header o (D.reads s name) hfile hsize
  have hline := firstLine_eq ⟨address, []⟩ (cString ((D.file name).take 100))
  refine ⟨(openTrap T s name).1, fd, headerNumbers (afterColon (cString ((D.file name).take 100))),
    (fsSeek T s' fd (firstLine ⟨address, []⟩ (cString ((D.file name).take 100))) fsSeekSet).2,
    ?_, hfd, ?_⟩
  · rw [hrun, header_ends ⟨address, []⟩ hends, List.append_nil, ok_bind, header_start _ hstart]
  · rw [hline, hreading.seek]
    unfold bodyStart
    split_ifs with hnewline
    · have hle := bodyStart_le (D.file name)
      rw [bodyStart, if_pos hnewline] at hle
      exact hreading.moved (o.seek _ _ _ hreading.position (hle.trans hsize)).2
    · exact hreading.moved (D.seek_front _ _ _ _ _ hreading.position (by simp only; omega))

/-! ### The calls -/

namespace Progress

variable {p p' : Progress}

/-- The same but for the address. -/
def Alike (p p' : Progress) : Prop := p.lpos = p'.lpos ∧ p.bytes = p'.bytes

theorem line_alike (h : p.Alike p') : p.line.1 = p'.line.1 ∧ p.line.2.Alike p'.line.2 := by
  obtain ⟨hpos, hbytes⟩ := h
  unfold line
  rw [← hpos]
  split
  · exact ⟨rfl, rfl, congrArg (· ++ _) hbytes⟩
  · exact ⟨rfl, hpos, hbytes⟩

theorem round_alike (h : p.Alike p') : p.round.1 = p'.round.1 ∧ p.round.2.Alike p'.round.2 := by
  have hread : p.readAddress.Alike p'.readAddress :=
    ⟨congrArg (fun l => (dstrtol l 16).2) h.1, h.2⟩
  rw [round_eq, round_eq, ← h.1, ← h.2]
  split_ifs
  · exact ⟨rfl, h⟩
  · exact line_alike h
  · exact ⟨rfl, h⟩
  · exact line_alike hread

theorem loop_alike (fuel : ℕ) (h : p.Alike p') : (loop fuel p).Alike (loop fuel p') := by
  induction fuel generalizing p p' with
  | zero => exact h
  | succ fuel ih =>
    obtain ⟨hmore, halike⟩ := round_alike h
    rw [loop, loop]
    simp only [← hmore]
    split
    · exact ih halike
    · exact halike

end Progress

/-- Where a call ends does not depend on the address. -/
theorem finish_alike (w : List Char) (a : BitVec 32) : (finish w a).Alike (finish w 0) :=
  Progress.loop_alike _ ⟨rfl, rfl⟩

theorem advance_eq (w : List Char) (a : BitVec 32) : advance w a = advance w 0 := by
  unfold advance
  rw [(finish_alike w a).1]

/-- A call that stays inside does not depend on `localbuf`. -/
theorem call_ends (o : Ordinary T u file At) (h : Reading At u fd s k) (addr : BitVec 32)
    (hw : LineEnds file k) : ∃ c s',
      (∀ stale : Fin 204 → Char,
        Raw.processGetFromFile T (List.ofFn stale) s fd addr 100 = .ok (c, s')) ∧
      (c.nbytes > 0 ↔ (finish (window file k 100) 0).bytes ≠ []) ∧
      (c.nbytes > 0 → Reading At u fd s' (k + advance (window file k 100) 0)) := by
  by_cases hempty : window file k 100 = []
  · obtain ⟨s₁, s₂, e₁, e₂, -⟩ := window_read o h (min (100 * 2) 200)
    refine ⟨⟨0, [], addr⟩, s₂, fun stale => raw_empty e₁ e₂ hempty, ?_, fun hpos => ?_⟩
    · rw [hempty]
      exact iff_of_false (by simp) (not_not.mpr rfl)
    · exact absurd hpos (by simp)
  · have hn := hw.resolve_left hempty
    obtain ⟨s₁, s₂, e₁, e₂, -⟩ := window_read o h (min (100 * 2) 200)
    obtain ⟨s', hcall, hreading⟩ := call_newline o h addr hn
    let p := finish (window file k 100) addr
    refine ⟨⟨p.bytes.length, p.bytes, p.addr⟩, s', fun stale => ?_, ?_, fun _ => ?_⟩
    · rw [← hcall]
      exact raw_newline e₁ e₂ (length_window_le file k 100) (List.length_ofFn) hn
    · rw [← (finish_alike _ addr).2]
      exact Int.natCast_pos.trans List.length_pos_iff
    · rwa [advance_eq] at hreading

/-- A call that delivers something moves on in the file. -/
theorem advance_pos (h : (finish (window file k 100) 0).bytes ≠ []) :
    0 < advance (window file k 100) 0 ∧ k + advance (window file k 100) 0 ≤ file.length := by
  have hbytes := List.length_pos_iff.mpr h
  have htwo := two_bytes_le_advance (window file k 100) 0
  have hle := (advance_le (window file k 100) 0).trans (isPrefix_upToNewline _).length_le
  have hfile := window_le_length file k 100
  omega

/-- Where every call reads nothing or a newline, the loop ends, whatever `localbuf` held. -/
theorem loadLoop_ends {place : Chunk → α → Except Halt α} (o : Ordinary T u file At)
    (h : Reading At u fd s k) (total : ∀ c a, ∃ a', place c a = .ok a')
    (hlines : ∀ k', Comes file k k' → LineEnds file k') (addr : BitVec 32) (a : α)
    (hn : file.length - k < n) :
    ∃ r, ∀ localbuf, loadLoop T localbuf place fd n s addr a = .ok r := by
  induction n generalizing s k addr a with
  | zero => omega
  | succ n ih =>
    obtain ⟨c, s', hcall, hmore, hmoves⟩ := call_ends o h addr (hlines k (.here k))
    by_cases hpos : c.nbytes > 0
    · obtain ⟨a', ha⟩ := total c a
      have hdelivers := hmore.mp hpos
      obtain ⟨hadvance, hlength⟩ := advance_pos hdelivers
      obtain ⟨r, hr⟩ := ih (hmoves hpos) (fun k' hk' => hlines k' (.next hdelivers hk')) c.addr a'
        (by omega)
      refine ⟨r, fun localbuf => ?_⟩
      rw [loadLoop, hcall, ok_bind]
      simp only [if_pos hpos, ha]
      exact hr localbuf
    · refine ⟨(a, s'), fun localbuf => ?_⟩
      rw [loadLoop, hcall, ok_bind]
      exact if_neg hpos

/-- Where a call reads neither, it looks for a newline in front of `localbuf`. -/
theorem loadLoop_wild {place : Chunk → α → Except Halt α} (o : Ordinary T u file At)
    (h : Reading At u fd s k) (total : ∀ c a, ∃ a', place c a = .ok a')
    (comes : Comes file k k') (hline : ¬ LineEnds file k') (localbuf : ℕ → Fin 204 → Char)
    (addr : BitVec 32) (a : α) (hn : file.length - k < n) :
    loadLoop T localbuf place fd n s addr a = .error .wildAccess := by
  induction comes generalizing s addr a n with
  | here k =>
    obtain ⟨n, rfl⟩ := Nat.exists_eq_succ_of_ne_zero (Nat.ne_zero_of_lt hn)
    rw [loadLoop, call_wild o h addr _ (not_or.mp hline).1 (not_or.mp hline).2]
    rfl
  | @next k k' hdelivers rest ih =>
    obtain ⟨n, rfl⟩ := Nat.exists_eq_succ_of_ne_zero (Nat.ne_zero_of_lt hn)
    by_cases hw : LineEnds file k
    · obtain ⟨c, s', hcall, hmore, hmoves⟩ := call_ends o h addr hw
      obtain ⟨a', ha⟩ := total c a
      obtain ⟨hadvance, hlength⟩ := advance_pos hdelivers
      have hpos := hmore.mpr hdelivers
      rw [loadLoop, hcall, ok_bind]
      simp only [if_pos hpos, ha]
      exact ih (hmoves hpos) hline c.addr a' (by omega)
    · rw [loadLoop, call_wild o h addr _ (not_or.mp hw).1 (not_or.mp hw).2]
      rfl

end DlxOs.Files
