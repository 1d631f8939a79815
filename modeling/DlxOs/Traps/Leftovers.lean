import DlxOs.Kernel.Synch
import DlxOs.Memory.SharedPages
import DlxOs.Traps.Fork
import DlxOs.Traps.Format

/-!
# Traps of user processes, and what the kernel stack held before

`dointerrupt` for the traps of a user process that take arguments: printing,
opening a file, process creation, shared pages, and semaphores, locks and
condition variables. A handler copies its arguments into local variables, and
each of these starts with what the stack held there.

## Implementation notes

What `printf` of the simulator gets is kept instead of the text it makes of it:
the format, the words that the conversions take, and the strings that they
point to. `CondCreate` takes any handle of a lock; outside its table, the fields
of a lock are read from the memory that lies there.
-/

namespace DlxOs.Traps

open Kernel (Halt PcbPtr KState KernelM Ret CondPtr index maxLocks ok_bind)
open Memory (Bytes)

variable {σ : Type}

inductive Trap
  | printf
  | fileOpen
  | processCreate
  | shareMapPage
  | semCreate
  | semWait
  | semSignal
  | lockCreate
  | lockAcquire
  | lockRelease
  | condCreate
  | condWait
  | condSignal
  deriving DecidableEq

/-- The local variables of the handlers as they are before, and the stack area as memory. -/
structure Leftovers where
  /-- `arg` of `GetIntFromTrapArg` and `GetUintFromTrapArg` -/
  arg : Chars 4
  /-- `args` of `dointerrupt` -/
  args : Chars 16
  filename : Chars 32
  printf : PrintfArrays
  create : CreateArrays
  fork : ForkArrays
  stack : Bytes

/-- What `printf` gets. -/
structure Printed where
  format : List Byte
  words : List Word
  strings : List (List Byte)

/-- The simulator, and where the stack area and the table `locks` are. -/
structure Env (σ : Type) extends Simulator σ where
  stackArea : Word → Bool
  locks : Word

/-- What a trap leaves. -/
structure Outcome (σ : Type) where
  printed : Option Printed
  /-- What register r1 of the process gets, at once or after it has slept. -/
  result : Option Ret
  started : Option Entry
  sys : Sys σ

def Outcome.unchanged (s : Sys σ) : Outcome σ := ⟨none, none, none, s⟩

def getUintFromTrapArg (space : UserSpace) (trapArgs : Word) (arg : Chars 4) :
    Except Halt Word := do
  (← memoryCopyUserToSystem space trapArgs arg 0 4).word 0

def getIntFromTrapArg (space : UserSpace) (trapArgs : Word) (arg : Chars 4) : Except Halt ℤ := do
  return (← getUintFromTrapArg space trapArgs arg).toInt

/-- The case `TRAP_OPEN` of `dointerrupt`; the file name is only for debugging output. -/
def trapOpen (space : UserSpace) (trapArgs : Word) (args : Chars 16) (filename : Chars 32) :
    Except Halt Word := do
  let args ← memoryCopyUserToSystem space trapArgs args 0 8
  let filename ← memoryCopyUserToSystem space (← args.word 0) filename 0 31
  let _ ← filename.store 31 0
  return (← args.word 1) + 0x10000

/-! ### What `printf` gets -/

/-- The string at an address, without its null character. -/
def cString (μ : Bytes) (a : Word) : List Byte := (bytesAt μ a maxRounds).takeWhile (· != 0)

/-- The argument words that are strings, the first one being word `n`. -/
def stringWords : Place → ℕ → List Byte → List ℕ
  | _, _, [] => []
  | .text, n, b :: u => stringWords (if b = ascii '%' then .percent else .text) n u
  | .percent, n, b :: u =>
    if b = ascii '%' then stringWords .text n u
    else if ends b then
      (if b = ascii 's' then [n] else []) ++ stringWords .text (n + if float b then 2 else 1) u
    else stringWords .conversion n u
  | .conversion, n, b :: u =>
    if ends b then
      (if b = ascii 's' then [n] else []) ++ stringWords .text (n + if float b then 2 else 1) u
    else stringWords .conversion n u

/-- The call passes eight words. -/
def printed (μ : Bytes) (call : PrintfCall) : Except Halt Printed :=
  match argWords .text call.formatstr.held with
  | none => .error .wildAccess
  | some k =>
    if k ≤ 8 then
      let words := (List.ofFn call.scan.printfArgs).take k
      .ok ⟨call.formatstr.held, words,
        (stringWords .text 0 call.formatstr.held).filterMap fun i => words[i]?.map (cString μ)⟩
    else .error .wildAccess

/-- The memory with the stack area as it was left. -/
def Env.memory (E : Env σ) (stack : Bytes) (s : Sys σ) : Bytes :=
  fun a => if E.stackArea a then stack a else s.mem a

/-! ### Locks outside their table -/

def wordAt (μ : Bytes) (a : Word) : Word := μ a ++ μ (a + 1) ++ μ (a + 2) ++ μ (a + 3)

/-- `&locks[lock]`, where an entry has its field `pid` first. -/
def Env.lockAddr (E : Env σ) (lock : ℤ) : Word := E.locks + BitVec.ofInt 32 (20 * lock)

/-- `locks[lock].inuse` -/
def Env.lockInuse (E : Env σ) (μ : Bytes) (K : KState) (lock : ℤ) : Bool :=
  match index maxLocks lock with
  | some k => (K.locks k).inuse
  | none => wordAt μ (E.lockAddr lock + 16) ≠ 0

/-- A call of `CondWait` or `CondSignal`: `rest` is what the owner of a lock outside the table goes
on with. -/
def Env.condCall (E : Env σ) (μ : Bytes) (f : CondPtr → KernelM Ret)
    (rest : CondPtr → BitVec 4 → KernelM Ret) (c : CondPtr) : KernelM Ret := do
  let lock := ((← get).conds c).lock
  match index maxLocks lock with
  | some _ => f c
  | none =>
    let intrval ← Kernel.disableIntrs
    if wordAt μ (E.lockAddr lock) ≠ BitVec.ofInt 32 (← Kernel.getCurrentPid) then
      Kernel.printf "CondWait: Proc can't wait, doesn't own lock!\n"
      Kernel.restoreIntrs intrval
      return .returned Kernel.syncFail
    else rest c intrval

/-- The lock is released next. -/
def Env.condWait (E : Env σ) (μ : Bytes) : CondPtr → KernelM Ret :=
  E.condCall μ Kernel.condWait fun _ _ => throw .wildAccess

/-- The lock is handed to a process that waits, if there is one. -/
def Env.condSignal (E : Env σ) (μ : Bytes) : CondPtr → KernelM Ret :=
  E.condCall μ Kernel.condSignal fun c intrval => do
    if !(← Kernel.isEmpty (.waiting (.cond c))) then throw .wildAccess
    Kernel.restoreIntrs intrval
    return .returned Kernel.syncSuccess

/-! ### The traps -/

def Sys.creates (s : Sys σ) (f : KernelM ℤ) : Except Halt (Outcome σ) := do
  let (r, K) ← f s.kernel
  return { Outcome.unchanged s with
    result := some (.returned r)
    sys := { s with kernel := K } }

def Sys.calls (s : Sys σ) (f : KernelM Ret) : Except Halt (Outcome σ) := do
  let (r, K) ← f s.kernel
  return { Outcome.unchanged s with result := some r, sys := { s with kernel := K } }

/-- `dointerrupt` for a trap of the user process `p`. -/
def userTrap (E : Env σ) (p : PcbPtr) (space : UserSpace) (trapArgs : Word) (s : Sys σ)
    (l : Leftovers) : Trap → Except Halt (Outcome σ)
  | .printf => do
    let call ← trapPrintfUser space trapArgs l.printf
    return { Outcome.unchanged s with printed := some (← printed (E.memory l.stack s) call) }
  | .fileOpen => do
    let result ← trapOpen space trapArgs l.args l.filename
    return { Outcome.unchanged s with result := some (.returned result.toInt) }
  | .processCreate => do
    let call ← trapProcessCreateUser space trapArgs l.create
    let (started, s) ← processFork E.toSimulator call l.fork s
    return { Outcome.unchanged s with started := started }
  | .shareMapPage => do
    let handle ← getUintFromTrapArg space trapArgs l.arg
    let (handle, pages) ← Memory.mmap s.pages p handle
    return { Outcome.unchanged { s with pages := pages } with
      result := some (.returned handle.toInt) }
  | .semCreate => do
    s.creates (Kernel.semCreate (← getIntFromTrapArg space trapArgs l.arg))
  | .semWait => do
    s.calls (Kernel.semHandleWait (← getIntFromTrapArg space trapArgs l.arg))
  | .semSignal => do
    s.calls (Kernel.semHandleSignal (← getIntFromTrapArg space trapArgs l.arg))
  | .lockCreate => s.creates Kernel.lockCreate
  | .lockAcquire => do
    s.calls (Kernel.lockHandleAcquire (← getIntFromTrapArg space trapArgs l.arg))
  | .lockRelease => do
    s.calls (Kernel.lockHandleRelease (← getIntFromTrapArg space trapArgs l.arg))
  | .condCreate => do
    let lock ← getIntFromTrapArg space trapArgs l.arg
    s.creates (Kernel.condCreateFor lock (E.lockInuse (E.memory l.stack s) s.kernel lock))
  | .condWait => do
    s.calls (Kernel.handled (← getIntFromTrapArg space trapArgs l.arg)
      (fun K c => (K.conds c).inuse) (E.condWait (E.memory l.stack s)))
  | .condSignal => do
    s.calls (Kernel.handled (← getIntFromTrapArg space trapArgs l.arg)
      (fun K c => (K.conds c).inuse) (E.condSignal (E.memory l.stack s)))

/-- A handler does not run over its own arrays, nor `ProcessFork` over the name of a PCB, and it
does not write to a lock outside the table. -/
def Stays (E : Env σ) (p : PcbPtr) (space : UserSpace) (trapArgs : Word) (s : Sys σ)
    (l : Leftovers) (t : Trap) : Prop :=
  match t with
  | .printf => ∃ o, userTrap E p space trapArgs s l t = .ok o
  | .processCreate | .condWait | .condSignal =>
    userTrap E p space trapArgs s l t ≠ .error .wildAccess
  | _ => True

/-- What the stack held before makes no difference. -/
def Independent (E : Env σ) (p : PcbPtr) (space : UserSpace) (trapArgs : Word) (s : Sys σ)
    (t : Trap) : Prop :=
  ∀ l l', Stays E p space trapArgs s l t ∧
    userTrap E p space trapArgs s l t = userTrap E p space trapArgs s l' t

end DlxOs.Traps
