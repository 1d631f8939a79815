import Mathlib.Algebra.GroupWithZero.Nat
import Mathlib.Data.Finset.Card
import Mathlib.Data.Fintype.Basic
import Mathlib.Tactic.Common

/-!
# Open files, as in `os/filesys.c`

A table of 32 slots keeps the open files of two file systems: that of the
simulator, which is reached by traps, and the DLX one, which is a stub.

## Implementation notes

The traps are a parameter, over a state of their own. What a read puts into the
buffer of its caller is returned beside the result. The field `buffer` of a slot
is left out, and the union `u` is one number.
-/

namespace DlxOs.Files

def fsMaxOpenFiles : ℕ := 32

def fsModeRead : BitVec 32 := 0x1

def fsModeWrite : BitVec 32 := 0x2

def fsModeRw : BitVec 32 := fsModeRead ||| fsModeWrite

def fsSeekSet : ℤ := 0

def fsSeekCur : ℤ := 1

/-- The file traps of the simulator. -/
structure Traps (σ : Type) where
  «open» : List Char → BitVec 32 → σ → ℤ × σ
  close : ℤ → σ → ℤ × σ
  read : ℤ → ℤ → σ → (ℤ × List Char) × σ
  write : ℤ → List Char → ℤ → σ → ℤ × σ
  lseek : ℤ → ℤ → ℤ → σ → ℤ × σ

scoped instance fs_ne_zero : NeZero 2 := ⟨by decide⟩

structure FsOpenFile where
  /-- The simulator's file system, or the DLX one. -/
  fs : Fin 2
  flags : BitVec 32
  /-- The simulator's descriptor, or the position. -/
  u : ℤ

abbrev Slot := Fin fsMaxOpenFiles

/-- The open files, and the state behind the traps. -/
structure FsState (σ : Type) where
  openfiles : Slot → FsOpenFile
  simulator : σ

variable {σ : Type}

namespace FsState

def setFile (s : FsState σ) (x : Slot) (f : FsOpenFile) : FsState σ :=
  { s with openfiles := Function.update s.openfiles x f }

def setFlags (s : FsState σ) (x : Slot) (flags : BitVec 32) : FsState σ :=
  s.setFile x { s.openfiles x with flags := flags }

/-- What a trap did. -/
def setSimulator {α : Type} (s : FsState σ) (r : α × σ) : α × FsState σ :=
  (r.1, { s with simulator := r.2 })

end FsState

/-- The slot of a valid descriptor. -/
def fdValid (s : FsState σ) (fd : ℤ) : Option Slot :=
  if h : fd > 0 ∧ fd < fsMaxOpenFiles then
    let x : Slot := ⟨fd.toNat, by omega⟩
    if (s.openfiles x).flags ≠ 0 then some x else none
  else none

def fsFreeEntry (s : FsState σ) (x : Slot) : FsState σ := s.setFlags x 0

def dstrncmp : List Char → List Char → ℕ → ℤ
  | _, _, 0 => 0
  | _, [], _ + 1 => 0
  | [], _ :: _, _ + 1 => -1
  | a :: s₁, b :: s₂, n + 1 => if a = b then dstrncmp s₁ s₂ n else if a < b then -1 else 1

def fsUnixOpen (T : Traps σ) (s : FsState σ) (x : Slot) (name : List Char) (mode : BitVec 32) :
    ℤ × FsState σ :=
  let o := s.setSimulator (T.open name mode s.simulator)
  (if o.1 < 0 then o.1 else 1, o.2.setFile x { o.2.openfiles x with u := o.1 })

def fsDlxOpen (s : FsState σ) (x : Slot) : ℤ × FsState σ :=
  (1, s.setFile x { s.openfiles x with u := 0 })

/-- The `Open` function of the file system of a slot. -/
def fsOpenIn (T : Traps σ) (s : FsState σ) (x : Slot) (name : List Char) (mode : BitVec 32) :
    ℤ × FsState σ :=
  if (s.openfiles x).fs = 0 then fsUnixOpen T s x name mode else fsDlxOpen s x

def fsOpen (T : Traps σ) (s : FsState σ) (name : List Char) (mode : BitVec 32) : ℤ × FsState σ :=
  let mode := mode &&& fsModeRw
  if mode = 0 then (-1, s) else
    match Fin.find? fun i => (s.openfiles i).flags = 0 with
    | none => (-1, s)
    | some i =>
      let s := s.setFlags i mode
      let fs : Fin 2 := if dstrncmp name "dlx:".toList 4 = 0 then 1 else 0
      let s := s.setFile i { s.openfiles i with fs := fs }
      let o := fsOpenIn T s i name mode
      if o.1 < 0 then (o.1, fsFreeEntry o.2 i) else (i.val, o.2)

def fsClose (T : Traps σ) (s : FsState σ) (fd : ℤ) : ℤ × FsState σ :=
  match fdValid s fd with
  | none => (-1, s)
  | some x =>
    let f := s.openfiles x
    let c := if f.fs = 0 then s.setSimulator (T.close f.u s.simulator) else (1, s)
    (c.1, fsFreeEntry c.2 x)

/-- A read of the DLX file system leaves the buffer alone. -/
def fsRead (T : Traps σ) (s : FsState σ) (fd n : ℤ) : (ℤ × List Char) × FsState σ :=
  match fdValid s fd with
  | none => ((-1, []), s)
  | some x =>
    let f := s.openfiles x
    if f.fs = 0 then s.setSimulator (T.read f.u n s.simulator) else ((1, []), s)

def fsWrite (T : Traps σ) (s : FsState σ) (fd : ℤ) (buf : List Char) (n : ℤ) : ℤ × FsState σ :=
  match fdValid s fd with
  | none => (-1, s)
  | some x =>
    let f := s.openfiles x
    if f.fs = 0 then s.setSimulator (T.write f.u buf n s.simulator) else (1, s)

def fsSeek (T : Traps σ) (s : FsState σ) (fd offset whence : ℤ) : ℤ × FsState σ :=
  match fdValid s fd with
  | none => (-1, s)
  | some x =>
    let f := s.openfiles x
    if f.fs = 0 then s.setSimulator (T.lseek f.u offset whence s.simulator) else (f.u, s)

/-- All slots become free. -/
def fsModuleInit (s : FsState σ) : FsState σ :=
  { s with openfiles := fun x => { s.openfiles x with flags := 0 } }

end DlxOs.Files
