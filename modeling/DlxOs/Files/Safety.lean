import DlxOs.Files.Headers

/-!
# Loading any file

For a file of any contents: which accesses stay inside the buffers, and why the
loop of `ProcessFork` comes to an end.
-/

namespace DlxOs.Files

open Kernel (Halt ok_bind)

variable {σ : Type} {T : Traps σ} {u fd : ℤ} {file name : List Char} {At : ℕ → σ → Prop}
  {s s' s₀ : FsState σ} {k max n : ℕ}

/-- A descriptor of a file of the simulator is opened. -/
def OpensFile (T : Traps σ) (s : FsState σ) (name : List Char) : Prop :=
  ∃ x, fdValid (fsOpen T s name fsModeRead).2 (fsOpen T s name fsModeRead).1 = some x ∧
    ((fsOpen T s name fsModeRead).2.openfiles x).fs = 0

/-- A descriptor that is opened stands for the file `u`, at its start. -/
def Opens (T : Traps σ) (u : ℤ) (At : ℕ → σ → Prop) (s : FsState σ) (name : List Char) : Prop :=
  OpensFile T s name →
    Reading At u (fsOpen T s name fsModeRead).1 (fsOpen T s name fsModeRead).2 0

/-- As many calls in a row as `n`, each of which delivers some bytes. What is in `localbuf`
before a call is open. -/
inductive Calls (T : Traps σ) (fd : ℤ) (max : ℕ) : ℕ → FsState σ → FsState σ → Prop
  | done {s : FsState σ} : Calls T fd max 0 s s
  | more {n : ℕ} {s s₁ s' : FsState σ} {stale addr c} (hstale : stale.length = 204)
      (call : Raw.processGetFromFile T stale s fd addr max = .ok (c, s₁)) (positive : 0 < c.nbytes)
      (rest : Calls T fd max n s₁ s') : Calls T fd max (n + 1) s s'

/-- Reading the header and a call for `max` bytes stay inside their buffers, and the loop over
such calls ends. -/
structure LoadsSafely (T : Traps σ) (s₀ : FsState σ) (name : List Char) (s : FsState σ) (fd : ℤ)
    (max : ℕ) : Prop where
  header : ∀ address, ∃ r, Raw.processGetCodeInfo T address s₀ name = .ok r
  call : ∀ stale addr, stale.length = 204 →
    ∃ r, Raw.processGetFromFile T stale s fd addr max = .ok r
  loop : ∃ rounds, ∀ n s', Calls T fd max n s s' → n ≤ rounds

/-! ### Calls -/

/-- A call that stays inside does what the model on strings says, and moves on if it delivers
bytes. -/
theorem call_inside (o : Ordinary T u file At) (h : Reading At u fd s k) (addr : BitVec 32)
    {stale : List Char} (hstale : stale.length = 204)
    (hw : window file k max = [] ∨ '\n' ∈ window file k max) :
    ∃ c s', Raw.processGetFromFile T stale s fd addr max = .ok (c, s') ∧
      processGetFromFile T s fd addr max = .ok (c, s') ∧
      (0 < c.nbytes → ∃ k', k < k' ∧ k' ≤ file.length ∧ Reading At u fd s' k') := by
  obtain ⟨s₁, s₂, e₁, e₂, h₂⟩ := window_read o h (min (max * 2) 200)
  by_cases hempty : window file k max = []
  · exact ⟨⟨0, [], addr⟩, s₂, raw_empty e₁ e₂ hempty, processGetFromFile_empty e₁ e₂ hempty,
      fun hpos => absurd hpos (by simp)⟩
  · have hn := hw.resolve_left hempty
    have hraw := raw_newline (a := addr) e₁ e₂ (length_window_le file k max) hstale hn
    obtain ⟨s', hstrings, h'⟩ := call_newline o h addr hn
    refine ⟨_, s', hraw.trans hstrings, hstrings, ?_⟩
    intro hpos
    have hbytes : 0 < (finish (window file k max) addr).bytes.length := Int.natCast_pos.mp hpos
    have htwo := two_bytes_le_advance (window file k max) addr
    have hle := (advance_le (window file k max) addr).trans (isPrefix_upToNewline _).length_le
    have hfile := window_le_length file k max
    exact ⟨_, by omega, by omega, h'⟩

/-- A call on a window without a newline reads in front of `localbuf`. -/
theorem call_wild (o : Ordinary T u file At) (h : Reading At u fd s k) (addr : BitVec 32)
    (stale : List Char) (hempty : window file k max ≠ []) (hn : '\n' ∉ window file k max) :
    Raw.processGetFromFile T stale s fd addr max = .error .wildAccess := by
  obtain ⟨s₁, s₂, e₁, e₂, -⟩ := window_read o h (min (max * 2) 200)
  exact raw_wild e₁ e₂ hempty hn

/-- Each call that delivers bytes moves on in the file. -/
theorem calls_le (o : Ordinary T u file At) (h : Reading At u fd s k)
    (calls : Calls T fd max n s s') : n ≤ file.length - k := by
  induction calls generalizing k with
  | done => exact Nat.zero_le _
  | more hstale call positive rest ih =>
    by_cases hw : window file k max = [] ∨ '\n' ∈ window file k max
    · obtain ⟨c, s₁, hraw, -, hmoves⟩ := call_inside o h _ hstale hw
      obtain ⟨rfl, rfl⟩ := Prod.mk.inj (Except.ok.inj (hraw.symm.trans call))
      obtain ⟨k', hlt, hle, h'⟩ := hmoves positive
      have := ih h'
      omega
    · rw [not_or] at hw
      rw [call_wild o h _ _ hw.1 hw.2] at call
      cases call

/-! ### The header line -/

/-- No file is opened, or it is too short, or each search and number ends in its first 100
bytes. -/
def HeaderRead (T : Traps σ) (s : FsState σ) (name file : List Char) : Prop :=
  ¬ OpensFile T s name ∨ file.length < 100 ∨ HeaderEnds (file.take 100)

/-- Where the accesses stay inside the buffer, the string model says what is read. -/
theorem processGetCodeInfo_raw {stack : Frame} {r : (ℤ × Option CodeInfo) × FsState σ}
    (e : Raw.processGetCodeInfo T stack.address s₀ name = .ok r) :
    processGetCodeInfo T stack s₀ name = r := by
  unfold Raw.processGetCodeInfo at e
  unfold processGetCodeInfo
  generalize fsOpen T s₀ name fsModeRead = opened at e ⊢
  obtain ⟨fd, s⟩ := opened
  simp only at e ⊢
  by_cases hfd : fd < 0
  · rw [if_pos hfd] at e ⊢
    exact Except.ok.inj e
  · rw [if_neg hfd] at e ⊢
    generalize fsRead T s fd 100 = read at e ⊢
    obtain ⟨⟨totalsize, bytes⟩, s'⟩ := read
    simp only at e ⊢
    by_cases hsize : totalsize ≠ 100
    · rw [if_pos hsize] at e ⊢
      exact Except.ok.inj e
    · rw [if_neg hsize] at e ⊢
      by_cases hends : HeaderEnds bytes
      · rw [header_ends stack hends, ok_bind, header] at e
        generalize dstrstr _ _ = found at e ⊢
        cases found with
        | none => exact Except.ok.inj e
        | some rest => exact Except.ok.inj e
      · rw [header_wild stack.address hends] at e
        cases e

/-- A read that gets anything but 100 bytes is followed by no access to them. -/
theorem codeInfo_short (h : (fsRead T (fsOpen T s₀ name fsModeRead).2
    (fsOpen T s₀ name fsModeRead).1 100).1.1 ≠ 100) :
    ∃ fd s', fd < 0 ∧ ∀ address, Raw.processGetCodeInfo T address s₀ name = .ok ((fd, none), s') := by
  unfold Raw.processGetCodeInfo
  simp only [if_pos h]
  by_cases hfd : (fsOpen T s₀ name fsModeRead).1 < 0
  · exact ⟨_, _, by decide, fun _ => if_pos hfd⟩
  · exact ⟨_, _, by decide, fun _ => if_neg hfd⟩

theorem not_opensFile (h : ¬ OpensFile T s₀ name) : (fsRead T (fsOpen T s₀ name fsModeRead).2
    (fsOpen T s₀ name fsModeRead).1 100).1.1 ≠ 100 := by
  unfold OpensFile at h
  generalize fsOpen T s₀ name fsModeRead = opened at h
  unfold fsRead
  cases hx : fdValid opened.2 opened.1 with
  | none => simp
  | some x =>
    have hfs : (opened.2.openfiles x).fs ≠ 0 := fun h0 => h ⟨x, hx, h0⟩
    simp [hfs]

theorem opensFile_nonneg (h : OpensFile T s₀ name) : ¬ (fsOpen T s₀ name fsModeRead).1 < 0 := by
  obtain ⟨x, hx, -⟩ := h
  unfold fdValid at hx
  split at hx
  · omega
  · cases hx

/-- The read gets the first 100 bytes of the file, if it has them. -/
theorem header_bytes {s : FsState σ} (o : Ordinary T u file At) (h : Reading At u fd s 0) :
    (fsRead T s fd 100).1 = (((file.take 100).length : ℤ), file.take 100) ∧
      Reading At u fd (fsRead T s fd 100).2 (file.take 100).length := by
  obtain ⟨hread, hat⟩ := o.read 0 _ 100 h.position
  rw [List.drop_zero] at hread hat
  rw [Nat.zero_add] at hat
  rw [h.read]
  exact ⟨hread, h.moved hat⟩

/-- What is done with the first 100 bytes of a file that is opened. -/
theorem codeInfo_header (o : Ordinary T u file At) (hopen : Opens T u At s₀ name)
    (hfile : OpensFile T s₀ name) (hsize : 100 ≤ file.length) :
    ∃ fd s', 0 ≤ fd ∧ Reading At u fd s' 100 ∧ ∀ address,
      Raw.processGetCodeInfo T address s₀ name = Raw.header address (file.take 100) >>= fun r =>
        match r with
        | none => .ok ((-1, none), s')
        | some (info, line) => .ok ((fd, some info), (fsSeek T s' fd line fsSeekSet).2) := by
  have hlen : (file.take 100).length = 100 := by
    rw [List.length_take, min_eq_left hsize]
  obtain ⟨hread, hreading⟩ := header_bytes o (hopen hfile)
  rw [hlen] at hread hreading
  refine ⟨_, _, not_lt.mp (opensFile_nonneg hfile), hreading, fun address => ?_⟩
  unfold Raw.processGetCodeInfo
  simp only [if_neg (opensFile_nonneg hfile), hread]
  exact if_neg (not_not.mpr rfl)

/-- A file that is not opened or too short is refused. -/
theorem codeInfo_unread (o : Ordinary T u file At) (hopen : Opens T u At s₀ name)
    (h : ¬ OpensFile T s₀ name ∨ file.length < 100) :
    ∃ fd s', fd < 0 ∧ ∀ address, Raw.processGetCodeInfo T address s₀ name = .ok ((fd, none), s') := by
  apply codeInfo_short
  by_cases hfile : OpensFile T s₀ name
  · have hsize := h.resolve_left (not_not.mpr hfile)
    obtain ⟨hread, -⟩ := header_bytes o (hopen hfile)
    rw [hread, List.length_take]
    omega
  · exact not_opensFile hfile

/-- Otherwise the header line has to end in the first 100 bytes. -/
theorem codeInfo_wild (o : Ordinary T u file At) (hopen : Opens T u At s₀ name)
    (h : ¬ HeaderRead T s₀ name file) (address : ℤ) :
    Raw.processGetCodeInfo T address s₀ name = .error .wildAccess := by
  unfold HeaderRead at h
  push Not at h
  obtain ⟨hfile, hsize, hends⟩ := h
  obtain ⟨fd, s', -, -, hrun⟩ := codeInfo_header o hopen hfile hsize
  rw [hrun, header_wild address hends]
  rfl

theorem header_safe (o : Ordinary T u file At) (hopen : Opens T u At s₀ name) :
    (∀ address, ∃ r, Raw.processGetCodeInfo T address s₀ name = .ok r) ↔
      HeaderRead T s₀ name file := by
  constructor
  · intro hsafe
    by_contra hwild
    obtain ⟨r, hr⟩ := hsafe 0
    rw [codeInfo_wild o hopen hwild] at hr
    cases hr
  · intro h address
    by_cases hunread : ¬ OpensFile T s₀ name ∨ file.length < 100
    · obtain ⟨fd, s', -, hrun⟩ := codeInfo_unread o hopen hunread
      exact ⟨_, hrun address⟩
    · unfold HeaderRead at h
      push Not at hunread
      obtain ⟨hfile, hsize⟩ := hunread
      have hends := (h.resolve_left (not_not.mpr hfile)).resolve_left (not_lt.mpr hsize)
      obtain ⟨fd, s', -, -, hrun⟩ := codeInfo_header o hopen hfile hsize
      rw [hrun, header_ends ⟨address, []⟩ hends, ok_bind]
      rcases header _ _ with _ | ⟨info, line⟩
      · exact ⟨_, rfl⟩
      · exact ⟨_, rfl⟩

/-- Loading is safe if and only if the header line ends each search and number, and the window of
the call is empty or has a newline. -/
theorem loading_safe_iff (o : Ordinary T u file At) (hopen : Opens T u At s₀ name)
    (h : Reading At u fd s k) (max : ℕ) : LoadsSafely T s₀ name s fd max ↔
      HeaderRead T s₀ name file ∧ (window file k max = [] ∨ '\n' ∈ window file k max) := by
  constructor
  · intro safe
    refine ⟨(header_safe o hopen).mp safe.header, ?_⟩
    by_contra hw
    rw [not_or] at hw
    obtain ⟨r, hr⟩ := safe.call (List.replicate 204 ' ') 0 List.length_replicate
    rw [call_wild o h _ _ hw.1 hw.2] at hr
    cases hr
  · rintro ⟨hheader, hw⟩
    refine ⟨(header_safe o hopen).mpr hheader, ?_, file.length - k, ?_⟩
    · intro stale addr hstale
      obtain ⟨c, s', hraw, -⟩ := call_inside o h addr hstale hw
      exact ⟨_, hraw⟩
    · intro n s' calls
      exact calls_le o h calls

/-- The traps on a file with those characters. -/
def textTraps (file : List Char) : Traps ℕ where
  «open» _ _ _ := (3, 0)
  close _ k := (1, k)
  read _ n k := ((((file.drop k).take n.toNat).length, (file.drop k).take n.toNat),
    k + ((file.drop k).take n.toNat).length)
  write _ _ _ k := (-1, k)
  lseek _ offset whence k :=
    let position := if whence = fsSeekCur then k + offset else offset
    if position < 0 then (-1, k) else (position, position.toNat)

theorem textTraps_ordinary (file : List Char) :
    Ordinary (textTraps file) u file fun k r => r = k where
  tell := by
    rintro k _ rfl
    simp [textTraps, (Int.natCast_nonneg _).not_gt]
  seek := by
    rintro k _ j rfl -
    simp [textTraps, fsSeekSet, fsSeekCur, (Int.natCast_nonneg _).not_gt]
  read := by
    rintro k _ n rfl
    exact ⟨rfl, rfl⟩

/-- The first slot is taken, and the others are free. -/
def oneTaken : FsState ℕ := ⟨fun x => ⟨0, if x.val = 0 then 1 else 0, 3⟩, 0⟩

/-- All slots stand for the simulator's file 3. -/
def allOpened : FsState ℕ := ⟨fun _ => ⟨0, 1, 3⟩, 0⟩

theorem oneTaken_open (file : List Char) : fsOpen (textTraps file) oneTaken ['a'] fsModeRead =
    (1, ((oneTaken.setFlags ⟨1, by decide⟩ fsModeRead).setFile ⟨1, by decide⟩ ⟨0, 1, 3⟩).setFile
      ⟨1, by decide⟩ ⟨0, 1, 3⟩) := by
  have hfind : (Fin.find? fun x : Slot => (oneTaken.openfiles x).flags = 0) =
    some ⟨1, by decide⟩ := by decide
  have hdlx : dstrncmp ['a'] "dlx:".toList 4 ≠ 0 := by simp [dstrncmp]
  unfold fsOpen
  rw [if_neg (by decide)]
  simp only [hfind, if_neg hdlx]
  rfl

theorem oneTaken_opens (file : List Char) :
    Opens (textTraps file) 3 (fun k r => r = k) oneTaken ['a'] := by
  intro h
  rw [oneTaken_open]
  exact ⟨⟨⟨1, by decide⟩, rfl, rfl, rfl⟩, rfl⟩

theorem allOpened_reading : Reading (fun k r : ℕ => r = k) 3 1 allOpened 0 :=
  ⟨⟨⟨1, by decide⟩, by decide, rfl, rfl⟩, rfl⟩

/-- A file whose header line ends in its first 100 characters. -/
def codeFile : List Char :=
  "start: 0 0 8 8 8 0\n".toList ++ List.replicate 85 '.' ++ "\n0:0a1b\n4:2c3d\n".toList

theorem loading_safe_small : LoadsSafely (textTraps codeFile) oneTaken ['a'] allOpened 1 100 := by
  refine (loading_safe_iff (textTraps_ordinary codeFile) (oneTaken_opens codeFile)
    allOpened_reading 100).mpr ⟨.inr (.inr (.inr ⟨⟨[], _, rfl⟩, by decide, ?_⟩)), .inr ?_⟩
  · rw [← numerals_iff]
    decide
  · decide

/-- A file of two characters, none of which is a newline. -/
theorem loading_unsafe : ¬ ∀ (T : Traps ℕ) (u : ℤ) (file : List Char) (At : ℕ → ℕ → Prop)
    (s₀ s : FsState ℕ) (name : List Char) (fd : ℤ) (k max : ℕ), Ordinary T u file At →
      Opens T u At s₀ name → Reading At u fd s k → LoadsSafely T s₀ name s fd max := by
  intro h
  have safe := h (textTraps ['a', 'b']) 3 ['a', 'b'] (fun k r => r = k) oneTaken allOpened
    ['a'] 1 0 100 (textTraps_ordinary _) (oneTaken_opens _) allOpened_reading
  obtain ⟨r, hr⟩ := safe.call (List.replicate 204 ' ') 0 List.length_replicate
  rw [call_wild (textTraps_ordinary _) allOpened_reading 0 _ (by decide) (by decide)] at hr
  cases hr

end DlxOs.Files
