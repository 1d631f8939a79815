import Mathlib.Algebra.GroupWithZero.Nat
import Mathlib.Data.Set.Disjoint
import Mathlib.Data.Set.Lattice
import Mathlib.Logic.Function.Basic
import Mathlib.Order.CompletePartialOrder
import Mathlib.Tactic.Common

/-!
# Straight-line code of the DLX processor

Words of four bytes in a memory of bytes, the highest byte first, and the
instructions that load, store and move them. Code runs to its end; a branch
forward skips instructions, and a jump through a register has to reach the
label that is expected there.

## Implementation notes

A set of addresses is given by its start and its length, modulo the size of the
memory. A load or store of two words takes them from an address that need not
be even.
-/

namespace DlxOs.Dlx

abbrev Word := BitVec 32

abbrev Memory := Word → BitVec 8

/-! ### Areas of memory -/

/-- The `n` addresses from `a` on. -/
def area (a : Word) (n : ℕ) : Set Word := {x | (x - a).toNat < n}

variable {a b : Word} {n m k l : ℕ}

theorem mem_area {x : Word} : x ∈ area a n ↔ (x - a).toNat < n := Iff.rfl

theorem area_subset (hk : k + m ≤ n) (hn : n < 2 ^ 32) :
    area (a + BitVec.ofNat 32 k) m ⊆ area a n := by
  intro x hx
  rw [mem_area] at *
  bv_omega

theorem area_disjoint (h : k + m ≤ l) (hl : l + n < 2 ^ 32) :
    Disjoint (area (a + BitVec.ofNat 32 k) m) (area (a + BitVec.ofNat 32 l) n) := by
  refine Set.disjoint_left.mpr fun x hx hx' => ?_
  rw [mem_area] at *
  bv_omega

/-! ### Words -/

def load (m : Memory) (a : Word) : Word := m a ++ m (a + 1) ++ m (a + 2) ++ m (a + 3)

def store (m : Memory) (a v : Word) : Memory := fun x =>
  if x = a then v.extractLsb' 24 8
  else if x = a + 1 then v.extractLsb' 16 8
  else if x = a + 2 then v.extractLsb' 8 8
  else if x = a + 3 then v.extractLsb' 0 8
  else m x

variable {μ μ' : Memory} {v : Word}

theorem append_bytes (v : Word) : v.extractLsb' 24 8 ++ v.extractLsb' 16 8 ++ v.extractLsb' 8 8 ++
    v.extractLsb' 0 8 = v := by
  rw [BitVec.extractLsb'_append_extractLsb'_eq_extractLsb' (by decide),
    BitVec.extractLsb'_append_extractLsb'_eq_extractLsb' (by decide),
    BitVec.extractLsb'_append_extractLsb'_eq_extractLsb' (by decide), BitVec.extractLsb'_eq_self]

@[simp] theorem load_store : load (store μ a v) a = v := by
  have h₁ : a + 1 ≠ a := by bv_omega
  have h₂ : a + 2 ≠ a ∧ a + 2 ≠ a + 1 := by constructor <;> bv_omega
  have h₃ : a + 3 ≠ a ∧ a + 3 ≠ a + 1 ∧ a + 3 ≠ a + 2 := by
    refine ⟨?_, ?_, ?_⟩ <;> bv_omega
  simp only [load, store, if_pos, if_neg h₁, if_neg h₂.1, if_neg h₂.2, if_neg h₃.1, if_neg h₃.2.1,
    if_neg h₃.2.2]
  exact append_bytes v

theorem store_outside {x : Word} (h : x ∉ area a 4) : store μ a v x = μ x := by
  rw [mem_area] at h
  have h₀ : x ≠ a := by bv_omega
  have h₁ : x ≠ a + 1 := by bv_omega
  have h₂ : x ≠ a + 2 := by bv_omega
  have h₃ : x ≠ a + 3 := by bv_omega
  rw [store, if_neg h₀, if_neg h₁, if_neg h₂, if_neg h₃]

theorem load_congr (h : ∀ x ∈ area a 4, μ' x = μ x) : load μ' a = load μ a := by
  have h₀ : a ∈ area a 4 := by rw [mem_area]; bv_omega
  have h₁ : a + 1 ∈ area a 4 := by rw [mem_area]; bv_omega
  have h₂ : a + 2 ∈ area a 4 := by rw [mem_area]; bv_omega
  have h₃ : a + 3 ∈ area a 4 := by rw [mem_area]; bv_omega
  rw [load, h _ h₀, h _ h₁, h _ h₂, h _ h₃]
  rfl

theorem load_store_of_disjoint (h : Disjoint (area b 4) (area a 4)) :
    load (store μ a v) b = load μ b :=
  load_congr fun _ hx => store_outside (Set.disjoint_left.mp h hx)

/-! ### Instructions -/

abbrev Reg := Fin 32

scoped instance reg_ne_zero : NeZero 32 := ⟨by decide⟩

inductive Special
  | ir31 | iar | isr | cause | fault | ptbase | ptsize | ptbits | status
  deriving DecidableEq

structure State where
  r : Reg → Word
  f : Reg → Word
  special : Special → Word
  mem : Memory

inductive Instr
  | nop
  | lw (rd : Reg) (offset : ℤ) (rs : Reg)
  | sw (offset : ℤ) (rs rd : Reg)
  | ld (fd : Reg) (offset : ℤ) (rs : Reg)
  | sd (offset : ℤ) (rs fd : Reg)
  | movs2i (rd : Reg) (x : Special)
  | movi2s (x : Special) (rs : Reg)
  | lhi (rd : Reg) (imm : BitVec 16)
  | add (rd rs rt : Reg)
  | addi (rd rs : Reg) (imm : ℤ)
  | addui (rd rs : Reg) (imm : BitVec 16)
  | subui (rd rs : Reg) (imm : BitVec 16)
  | or (rd rs rt : Reg)
  | ori (rd rs : Reg) (imm : BitVec 16)
  | andi (rd rs : Reg) (imm : BitVec 16)
  /-- Branches that skip that many instructions. -/
  | beqz (rs : Reg) (skip : ℕ)
  | bnez (rs : Reg) (skip : ℕ)
  /-- A call; the code of the callee follows, and returns to the label. -/
  | jal (label : ℕ)
  /-- The return from a callee to the label. -/
  | jr (rs : Reg) (label : ℕ)
  /-- The return from an interrupt. -/
  | rfe

namespace State

variable (s : State)

def reg (i : Reg) : Word := if i = 0 then 0 else s.r i

def setReg (i : Reg) (v : Word) : State := { s with r := Function.update s.r i v }

def setFreg (i : Reg) (v : Word) : State := { s with f := Function.update s.f i v }

def setSpecial (x : Special) (v : Word) : State :=
  { s with special := Function.update s.special x v }

def store (a v : Word) : State := { s with mem := Dlx.store s.mem a v }

/-- The address of a load or a store. -/
def at' (offset : ℤ) (rs : Reg) : Word := s.reg rs + BitVec.ofInt 32 offset

variable {s} {i j : Reg} {a v w : Word}

@[simp] theorem reg_setReg :
    (s.setReg i v).reg j = if j = 0 then 0 else if j = i then v else s.reg j := by
  simp only [reg, setReg, Function.update_apply]
  split_ifs <;> rfl

@[simp] theorem setReg_setReg : (s.setReg i v).setReg i w = s.setReg i w := by
  simp only [setReg, Function.update_idem]

@[simp] theorem r_setReg : (s.setReg i v).r j = if j = i then v else s.r j :=
  Function.update_apply ..

@[simp] theorem f_setReg : (s.setReg i v).f = s.f := rfl

@[simp] theorem special_setReg : (s.setReg i v).special = s.special := rfl

@[simp] theorem mem_setReg : (s.setReg i v).mem = s.mem := rfl

@[simp] theorem reg_store : (s.store a v).reg i = s.reg i := rfl

@[simp] theorem r_store : (s.store a v).r = s.r := rfl

@[simp] theorem f_store : (s.store a v).f = s.f := rfl

@[simp] theorem special_store : (s.store a v).special = s.special := rfl

@[simp] theorem mem_store : (s.store a v).mem = Dlx.store s.mem a v := rfl

theorem reg_of_ne (h : i ≠ 0) : s.reg i = s.r i := if_neg h

end State

/-- What an instruction does, and how many of the next ones are skipped; nothing, if control goes
somewhere else than is expected. -/
def Instr.exec (labels : ℕ → Word) (s : State) : Instr → Option (ℕ × State)
  | nop => some (0, s)
  | lw rd offset rs => some (0, s.setReg rd (load s.mem (s.at' offset rs)))
  | sw offset rs rd => some (0, s.store (s.at' offset rs) (s.reg rd))
  | ld fd offset rs => some (0, (s.setFreg fd (load s.mem (s.at' offset rs))).setFreg (fd + 1)
      (load s.mem (s.at' offset rs + 4)))
  | sd offset rs fd =>
      some (0, (s.store (s.at' offset rs) (s.f fd)).store (s.at' offset rs + 4) (s.f (fd + 1)))
  | movs2i rd x => some (0, s.setReg rd (s.special x))
  | movi2s x rs => some (0, s.setSpecial x (s.reg rs))
  | lhi rd imm => some (0, s.setReg rd (imm ++ (0 : BitVec 16)))
  | add rd rs rt => some (0, s.setReg rd (s.reg rs + s.reg rt))
  | addi rd rs imm => some (0, s.setReg rd (s.reg rs + BitVec.ofInt 32 imm))
  | addui rd rs imm => some (0, s.setReg rd (s.reg rs + imm.setWidth 32))
  | subui rd rs imm => some (0, s.setReg rd (s.reg rs - imm.setWidth 32))
  | or rd rs rt => some (0, s.setReg rd (s.reg rs ||| s.reg rt))
  | ori rd rs imm => some (0, s.setReg rd (s.reg rs ||| imm.setWidth 32))
  | andi rd rs imm => some (0, s.setReg rd (s.reg rs &&& imm.setWidth 32))
  | beqz rs skip => some (if s.reg rs = 0 then skip else 0, s)
  | bnez rs skip => some (if s.reg rs ≠ 0 then skip else 0, s)
  | jal label => some (0, s.setReg 31 (labels label))
  | jr rs label => if s.reg rs = labels label then some (0, s) else none
  | rfe => some (0, s.setSpecial .status (s.special .isr))

/-- Code runs from its first instruction on, the next `skip` of which are left out. -/
def run (labels : ℕ → Word) : List Instr → ℕ → State → Option State
  | [], _, s => some s
  | _ :: code, skip + 1, s => run labels code skip s
  | i :: code, 0, s =>
    match i.exec labels s with
    | none => none
    | some (skip, s) => run labels code skip s

theorem run_cons {labels : ℕ → Word} {i : Instr} {code : List Instr} {s s' : State} {skip : ℕ}
    (h : i.exec labels s = some (skip, s')) :
    run labels (i :: code) 0 s = run labels code skip s' := by
  rw [run, h]

theorem run_skip {labels : ℕ → Word} {code : List Instr} {s : State} (skip : ℕ) :
    run labels code skip s = run labels (code.drop skip) 0 s := by
  induction code generalizing skip with
  | nil => cases skip <;> rfl
  | cons i code ih =>
      cases skip with
      | zero => rfl
      | succ skip => exact ih skip

end DlxOs.Dlx
