import DlxOs.Context.Chains

/-!
# The operand address of an instruction, as in `os/memory.c`

`MemoryGetOperandAddress` takes the base register of a load or a store from the
saved frame of the process. The word of the frame at the place of r0 holds the
address of the frame before.
-/

namespace DlxOs.Context

open Dlx

/-- The opcodes from 0x20 on that make no access to memory. -/
def invalidOps : Word := 0x3404

def opcode (instr : Word) : Word := (instr >>> 26) &&& 0x3f

/-- The check that the instruction is a load or a store. -/
def loadsOrStores (instr : Word) : Bool :=
  !(opcode instr < 0x20 || 0x2f < opcode instr ||
    ((invalidOps >>> (opcode instr - 0x20)) &&& 1) != 0)

def memoryGetOperandAddress (μ : Memory) (pcb instr : Word) : Word :=
  if loadsOrStores instr then
    let reg := (instr >>> 21) &&& 0x1f
    let offset := instr &&& 0xffff
    let offset := if offset &&& 0x8000 ≠ 0 then offset ||| 0xffff0000 else offset
    let regValue := load μ (cell (load μ pcb) (processStackIreg + reg.toNat))
    regValue + offset
  else 0xffffffff

/-! ### What the machine does -/

def baseRegister (instr : Word) : Reg := (instr.extractLsb' 21 5).toFin

def displacement (instr : Word) : Word := (instr.extractLsb' 0 16).signExtend 32

/-- The address that the instruction accesses in this state. -/
def operandAddress (s : State) (instr : Word) : Word :=
  if loadsOrStores instr then s.reg (baseRegister instr) + displacement instr else 0xffffffff

variable {ι : Type*} {L : Layout ι} {o : Os ι} {p : ι} {e : Entry} {es : List Entry}

theorem baseRegister_eq (instr : Word) :
    ((instr >>> 21) &&& 0x1f).toNat = (baseRegister instr : ℕ) := by
  rw [BitVec.toNat_and, BitVec.toNat_ushiftRight]
  change (instr.toNat >>> 21) &&& (2 ^ 5 - 1) = (instr.extractLsb' 21 5).toNat
  rw [Nat.and_two_pow_sub_one_eq_mod, BitVec.extractLsb'_toNat]

theorem displacement_eq (instr : Word) :
    (if (instr &&& 0xffff) &&& 0x8000 ≠ 0 then (instr &&& 0xffff) ||| 0xffff0000
      else instr &&& 0xffff) = displacement instr := by
  have hlow : (instr &&& 0xffff).toNat = instr.toNat % 2 ^ 16 := by
    rw [BitVec.toNat_and]
    change instr.toNat &&& (2 ^ 16 - 1) = _
    rw [Nat.and_two_pow_sub_one_eq_mod]
  have hsign : (instr &&& 0xffff) &&& 0x8000 =
      if instr.getLsbD 15 then BitVec.twoPow 32 15 else 0 := by
    rw [show (0x8000 : Word) = BitVec.twoPow 32 15 from rfl, BitVec.and_twoPow]
    simp
  have hmsb : (instr.extractLsb' 0 16).msb = instr.getLsbD 15 := by
    simp [BitVec.msb_eq_getLsbD_last]
  have hwide : ((instr.extractLsb' 0 16).setWidth 32).toNat = instr.toNat % 2 ^ 16 := by
    rw [BitVec.toNat_setWidth, BitVec.extractLsb'_toNat, Nat.shiftRight_zero]
    omega
  apply BitVec.eq_of_toNat_eq
  rw [displacement, BitVec.toNat_signExtend, hmsb, hwide, hsign]
  cases instr.getLsbD 15 with
  | true =>
      rw [if_pos rfl, if_pos rfl, if_pos (by decide), BitVec.toNat_or, hlow]
      change _ ||| (0xffff <<< 16) = _
      rw [Nat.or_comm, ← Nat.shiftLeft_add_eq_or_of_lt (by omega)]
      omega
  | false =>
      rw [if_neg Bool.false_ne_true, if_neg Bool.false_ne_true, if_neg (not_not.mpr rfl), hlow]
      rfl
/-- The function takes the base register from the frame, and the link to the frame before for r0. -/
theorem memoryGetOperandAddress_eq (h : Inv L o) (entered : o.entries p = e :: es)
    (instr : Word) : memoryGetOperandAddress o.cpu.mem (L.pcb p) instr =
      if loadsOrStores instr then
        (if baseRegister instr = 0 then e.currentSavedFrame
          else e.restored.r (baseRegister instr)) + displacement instr
      else 0xffffffff := by
  have he : e ∈ o.entries p := by simp [entered]
  have hhead : load o.cpu.mem (L.pcb p) = e.base := h.head p e (by simp [entered])
  unfold memoryGetOperandAddress
  split_ifs with hi hr
  · simp only
    rw [displacement_eq, hhead, baseRegister_eq, hr]
    exact congrArg (· + _) (h.held p e he).prevFrame
  · simp only
    rw [displacement_eq, hhead, baseRegister_eq, (h.held p e he).saved.reg _ hr]
  · rfl

/-- The function agrees with the machine but for the base register r0, which it takes for the link
to the frame before. -/
theorem operand_address_iff [DecidableEq ι] (h : (system L).Reachable o)
    (entered : o.entries p = e :: es) (saved : e.result = none) (instr : Word) :
    memoryGetOperandAddress o.cpu.mem (L.pcb p) instr = operandAddress e.context instr ↔
      (loadsOrStores instr = true → baseRegister instr = 0 → e.currentSavedFrame = 0) := by
  have hcontext : e.restored = e.context := by simp [Entry.restored, saved]
  rw [memoryGetOperandAddress_eq (reachable_inv h) entered, operandAddress, hcontext, State.reg]
  by_cases hi : loadsOrStores instr = true
  · rw [if_pos hi, if_pos hi]
    by_cases hr : baseRegister instr = 0
    · rw [if_pos hr, if_pos hr]
      constructor
      · intro heq _ _
        exact (BitVec.add_left_inj _).mp heq
      · intro hz
        rw [hz hi hr]
    · rw [if_neg hr, if_neg hr]
      exact iff_of_true rfl fun _ hr' => absurd hr' hr
  · rw [if_neg hi, if_neg hi]
    exact iff_of_true rfl fun hi' => absurd hi' hi

/-- A load with base register r5. -/
theorem operand_address_boot : ∃ o : Os Unit, (system oneProcess).Reachable o ∧
    (memoryGetOperandAddress o.cpu.mem (oneProcess.pcb ()) 0x8ca7fffc =
        operandAddress (bootEntry 0x5000).context 0x8ca7fffc ↔
      (loadsOrStores 0x8ca7fffc = true → baseRegister 0x8ca7fffc = 0 →
        (bootEntry 0x5000).currentSavedFrame = 0)) := by
  obtain ⟨s, hr, -⟩ := boot_entered 0x5000
  exact ⟨_, hr, operand_address_iff hr rfl rfl 0x8ca7fffc⟩

/-- A load from address 4 with base register r0, after an earlier entry. -/
theorem operand_address_r0 : ¬ ∀ (o : Os Unit) (e : Entry) (es : List Entry) (instr : Word),
    (system oneProcess).Reachable o → o.entries () = e :: es → e.result = none →
      memoryGetOperandAddress o.cpu.mem (oneProcess.pcb ()) instr =
        operandAddress e.context instr := by
  intro h
  obtain ⟨s, hr, -⟩ := boot_entered 0x5000
  have h₁ := h _ _ _ 0x8c070004 hr rfl rfl
  rw [memoryGetOperandAddress_eq (reachable_inv hr) rfl] at h₁
  revert h₁
  rw [operandAddress, if_pos (by decide), if_pos (by decide), if_pos (by decide), State.reg,
    if_pos (by decide)]
  decide

end DlxOs.Context
