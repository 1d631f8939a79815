import DlxOs.Paging.Isolation
import DlxOs.Traps.Creation
import DlxOs.Traps.OutsideLocks

/-!
# Traps and the leftovers on the kernel stack

For each trap of a user process, when what it does depends on what the kernel
stack held before: when it uses a word or a string that is not mapped, unless
every word that the stack could make of it has the same outcome.
-/

namespace DlxOs.Traps

open Kernel (Halt PcbPtr KState KernelM Ret ok_bind)
open Memory (Bytes)
open Paging (Paged pagedSystem smallSystem)

variable {σ : Type} {E : Env σ} {p : PcbPtr} {space : UserSpace} {trapArgs : Word} {s : Sys σ}
  {t : Trap} {x : Paged}

/-! ### Opening a file -/

theorem trapOpen_eq (args : Chars 16) (filename : Chars 32) :
    trapOpen space trapArgs args filename =
      (Chars.word (place args 0 (readable space trapArgs 8)) 1).map (· + 0x10000) := by
  obtain ⟨w₀, hw₀⟩ := Chars.word_ok (s := place args 0 (readable space trapArgs 8)) (k := 0)
    (by decide)
  obtain ⟨w₁, hw₁⟩ := Chars.word_ok (s := place args 0 (readable space trapArgs 8)) (k := 1)
    (by decide)
  unfold trapOpen
  rw [memoryCopyUserToSystem_eq (by decide), ok_bind, hw₀, ok_bind,
    memoryCopyUserToSystem_eq (by decide), ok_bind, Chars.store_eq (by decide), ok_bind, hw₁]
  rfl

/-- What `Open` returns is its second argument word, the last four of eight bytes. -/
theorem fileOpen_independent_iff : Independent E p space trapArgs s .fileOpen ↔
    (readable space trapArgs 8).length = 8 := by
  have hle : (readable space trapArgs 8).length ≤ 8 := length_readable_le
  constructor
  · intro h
    by_contra hne
    have hshort : (readable space trapArgs 8).length ≤ 7 := by omega
    let left (b : Byte) : Leftovers := { Leftovers.zero with args := fun _ => b }
    have hrun : ∀ b, ∃ w, Chars.word (place (fun _ : Fin 16 => b) 0 (readable space trapArgs 8)) 1 =
        .ok w ∧ userTrap E p space trapArgs s (left b) .fileOpen =
          .ok { Outcome.unchanged s with result := some (.returned (w + 0x10000).toInt) } := by
      intro b
      obtain ⟨w, hw⟩ := Chars.word_ok
        (s := place (fun _ : Fin 16 => b) 0 (readable space trapArgs 8)) (k := 1) (by decide)
      refine ⟨w, hw, ?_⟩
      unfold userTrap
      rw [trapOpen_eq, hw]
      rfl
    obtain ⟨w₀, hw₀, hrun₀⟩ := hrun 0
    obtain ⟨w₁, hw₁, hrun₁⟩ := hrun 1
    have hsame := (h (left 0) (left 1)).2
    rw [hrun₀, hrun₁] at hsame
    injection hsame with hsame
    have hresult := congrArg Outcome.result hsame
    injection hresult with hresult
    injection hresult with hresult
    exact word_place_last (by decide) hshort hw₀ hw₁ (by decide)
      (by simpa using BitVec.eq_of_toInt_eq hresult)
  · intro h l l'
    constructor
    · trivial
    · have hword : Chars.word (place l.args 0 (readable space trapArgs 8)) 1 =
          Chars.word (place l'.args 0 (readable space trapArgs 8)) 1 :=
        word_place_congr (by decide) (by omega)
      unfold userTrap
      rw [trapOpen_eq, trapOpen_eq, hword]

/-! ### All traps -/

/-- What a trap does is determined by the memory of the process and the state of the kernel. -/
def Determined (E : Env σ) (p : PcbPtr) (space : UserSpace) (trapArgs : Word) (s : Sys σ) :
    Trap → Prop
  | .printf => PrintsAlike E space trapArgs s
  | .fileOpen => (readable space trapArgs 8).length = 8
  | .processCreate => CreatesAlike E space trapArgs s
  | .shareMapPage =>
    ReadsWord space trapArgs ∨ ∀ w, Candidate space trapArgs w → MapsNothing s.pages p w
  | .semCreate => ReadsWord space trapArgs ∨ ∀ i, (s.kernel.sems i).inuse = true
  | .semWait | .semSignal =>
    HandleDetermined space trapArgs (fun i => (s.kernel.sems i).inuse = true) fun _ => False
  | .lockCreate => True
  | .lockAcquire =>
    HandleDetermined space trapArgs (fun i => (s.kernel.locks i).inuse = true) fun _ => False
  | .lockRelease =>
    HandleDetermined space trapArgs (fun i => (s.kernel.locks i).inuse = true) fun i =>
      ∃ q, s.kernel.currentPCB = some q ∧ (s.kernel.locks i).pid ≠ q.val ∧ s.kernel.intrs = 0xf
  | .condCreate => CondCreateAlike E space trapArgs s
  | .condWait =>
    HandleDetermined space trapArgs (fun c => (s.kernel.conds c).inuse = true) (fun _ => False) ∧
      ∀ w, Candidate space trapArgs w → ∀ c, NamesCond s w c → E.WaitKnown p s c
  | .condSignal =>
    HandleDetermined space trapArgs (fun c => (s.kernel.conds c).inuse = true) (fun _ => False) ∧
      ∀ w, Candidate space trapArgs w → ∀ c, NamesCond s w c → E.SignalKnown p s c

/-- The kernel and its pages as they are in a state of a run. -/
def Sys.at (x : Paged) (files : Files.FsState σ) (names : PcbPtr → PcbName) (mem : Bytes) : Sys σ :=
  ⟨x.machine.kernel, x.os, files, names, mem⟩

/-- The process that runs can trap, in every reachable state. -/
theorem Ready.of_reachable {memorySize lastosaddress : ℕ} (hsize : memorySize < 2 ^ 31)
    (hsum : lastosaddress + 65532 < 2 ^ 31)
    (hr : (pagedSystem memorySize lastosaddress).Reachable x)
    (hc : x.machine.kernel.currentPCB = some p) (files : Files.FsState σ)
    (names : PcbPtr → PcbName) (mem : Bytes) : Ready p (.at x files names mem) where
  current := hc
  table := (Kernel.reachable_inv (Paging.reachable_kernel hr)).table
  freemap := Paging.reachable_inside hsize hsum hr

/-- A simulator with one file, and the kernel stack in page 5. -/
def textEnv (file : List Char) : Env ℕ where
  traps := Files.textTraps file
  disk := Files.textDisk file
  buf := 0x50000
  buf_pos := by decide
  stackArea a := a >>> 16 == 5
  locks := 0x8000

/-- The state of a run, with file descriptors, and memory that is zero. -/
def Sys.started (x : Paged) : Sys ℕ := .at x Files.oneTaken (fun _ _ => 0) fun _ => 0

/-- The call of process creation with the argument `a`. -/
def argumentA : UserSpace := starting [0, 0, 0, 8, 0, 0, 0, 0, 97, 0]

theorem receives_argumentA {args : Chars (4 * maxArgs)} (h : Receives argumentA 0 args) :
    programName args = 8 ∧ argVector args 11 0 = [8] := by
  have hws : HasWords argumentA 0 ([8] ++ [0]) := ⟨rfl, rfl, rfl, rfl, rfl, rfl, rfl, rfl, trivial⟩
  let l : CreateArrays := ⟨fun _ => 0, fun _ => 0, args⟩
  have hargs : received argumentA 0 l = args := received_of_receives h
  have hword := received_word (l := l) hws (by simp) (k := 0) (by simp)
  have hvector := argVector_received (l := l) hws (by simp) (by simp)
  rw [hargs] at hword hvector
  exact ⟨Except.ok.inj (word_programName.symm.trans hword), hvector⟩

theorem codeFile_launches : (textEnv Files.codeFile).Launches (.started x) [97] := by
  have hopen := Files.oneTaken_open Files.codeFile
  refine ⟨⟨⟨1, by decide⟩, ?_, ?_⟩, by decide +kernel, [], _, rfl⟩
  · change Files.fdValid (Files.fsOpen (Files.textTraps Files.codeFile) Files.oneTaken ['a']
      Files.fsModeRead).2 _ = _
    rw [hopen]
    rfl
  · change ((Files.fsOpen (Files.textTraps Files.codeFile) Files.oneTaken ['a']
      Files.fsModeRead).2.openfiles _).fs = 0
    rw [hopen]
    rfl

end DlxOs.Traps
