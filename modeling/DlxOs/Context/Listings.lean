import DlxOs.Library.Dlx

/-!
# The listings that save and restore a context

`_intrhandler` and `_intrreturn`, and the calls to `_DisableIntrs` and
`_SetIntrs` within the second, with the address of the variable `_currentPCB`
as a parameter. A callee stands where it is called; the return addresses are
the labels 0 and 1.

## Implementation notes

The processor has no delay slots: `_intrreturn` goes on right after its call.
A `nop` after a jump is left out, as it is never reached.
-/

namespace DlxOs.Context

open Dlx Dlx.Instr

/-! ### The process control block and the frame, in words -/

def processStackIreg : ℕ := 10

def processStackFreg : ℕ := processStackIreg + 32

def processStackIar : ℕ := processStackFreg + 32

def processStackIsr : ℕ := processStackIar + 1

def processStackCause : ℕ := processStackIar + 2

def processStackFault : ℕ := processStackIar + 3

def processStackPtbase : ℕ := processStackIar + 4

def processStackPtsize : ℕ := processStackIar + 5

def processStackPtbits : ℕ := processStackIar + 6

def processStackPrevFrame : ℕ := 10

def processStackFrameSize : ℕ := 85

/-- Where a special register is saved. -/
def processStackSpecial : Special → Option ℕ
  | .iar => some processStackIar
  | .isr => some processStackIsr
  | .cause => some processStackCause
  | .fault => some processStackFault
  | .ptbase => some processStackPtbase
  | .ptsize => some processStackPtsize
  | .ptbits => some processStackPtbits
  | .ir31 => none
  | .status => none

/-! ### Entry -/

/-- The first instructions of `_intrhandler`, up to the label `intrSaveReg`. -/
def intrhandlerStack (currentPCB : Word) : List Instr :=
  [movs2i 31 .isr,
   andi 31 31 0x40,
   bnez 31 7, -- intrSystem
   lhi 31 (currentPCB.extractLsb' 16 16),
   addui 31 31 (currentPCB.extractLsb' 0 16),
   lw 31 0 31,
   lw 31 4 31,
   sw (-184) 31 29,
   ori 29 31 0,
   beqz 0 1, -- intrSaveReg
   -- intrSystem:
   sw (-184) 29 29,
   -- intrSaveReg:
   subui 29 29 340]

/-- `_intrhandler` from there on, as far as it only stores in the frame. -/
def intrSaveReg : List Instr :=
  [sw 44 29 1, sw 48 29 2, sw 52 29 3, sw 56 29 4, sw 60 29 5, sw 64 29 6, sw 68 29 7,
   sw 72 29 8, sw 76 29 9, sw 80 29 10, sw 84 29 11, sw 88 29 12, sw 92 29 13, sw 96 29 14,
   sw 100 29 15, sw 104 29 16, sw 108 29 17, sw 112 29 18, sw 116 29 19, sw 120 29 20,
   sw 124 29 21, sw 128 29 22, sw 132 29 23, sw 136 29 24, sw 140 29 25, sw 144 29 26,
   sw 148 29 27, sw 152 29 28,
   sw 160 29 30,
   movs2i 3 .ir31,
   sw 164 29 3,
   sd 168 29 0, sd 176 29 2, sd 184 29 4, sd 192 29 6, sd 200 29 8, sd 208 29 10,
   sd 216 29 12, sd 224 29 14, sd 232 29 16, sd 240 29 18, sd 248 29 20, sd 256 29 22,
   sd 264 29 24, sd 272 29 26, sd 280 29 28, sd 288 29 30,
   movs2i 4 .iar,
   sw 296 29 4,
   movs2i 5 .isr,
   sw 300 29 5,
   movs2i 6 .cause,
   sw 304 29 6,
   movs2i 3 .fault,
   sw 308 29 3,
   movs2i 3 .ptbase,
   sw 312 29 3,
   movs2i 3 .ptsize,
   sw 316 29 3,
   movs2i 3 .ptbits,
   sw 320 29 3,
   sw 0 29 6,
   sw 4 29 4,
   sw 8 29 5,
   lw 1 156 29,
   sw 12 29 1]

/-- The rest of `_intrhandler`, which links the frame to the process. -/
def intrhandlerLink (currentPCB : Word) : List Instr :=
  [lhi 1 (currentPCB.extractLsb' 16 16),
   addui 1 1 (currentPCB.extractLsb' 0 16),
   lw 1 0 1,
   lw 2 0 1,
   sw 40 29 2,
   sw 0 1 29]

/-- `_intrhandler`, up to the jump to `_dointerrupt`. -/
def intrhandler (currentPCB : Word) : List Instr :=
  intrhandlerStack currentPCB ++ (intrSaveReg ++ intrhandlerLink currentPCB)

/-! ### Return -/

def setIntrs : List Instr :=
  [subui 29 29 16,
   sw 12 29 2,
   lw 2 16 29,
   andi 2 2 0x0f,
   movs2i 1 .status,
   sw 8 29 1,
   andi 1 1 0xfff0,
   or 1 2 1,
   movi2s .status 1,
   lw 1 8 29,
   andi 1 1 0x0f,
   lw 2 12 29,
   addui 29 29 16,
   jr 31 1]

def disableIntrs : List Instr :=
  [sw (-4) 29 30,
   add 30 0 29,
   sw (-8) 29 31,
   subui 29 29 16,
   sw 0 29 2,
   addi 29 29 (-8),
   addi 2 0 15,
   sw 0 29 2,
   jal 1] ++ setIntrs ++
  [nop,
   addi 29 29 8,
   lw 2 0 29,
   lw 31 (-8) 30,
   add 29 0 30,
   lw 30 (-4) 30,
   jr 31 0]

/-- `_intrreturn` after its call, up to the point where it takes the frame off the chain. -/
def intrreturnUnlink (currentPCB : Word) : List Instr :=
  [lhi 1 (currentPCB.extractLsb' 16 16),
   addui 1 1 (currentPCB.extractLsb' 0 16),
   lw 1 0 1,
   lw 29 0 1,
   lw 2 40 29,
   sw 0 1 2]

/-- `_intrreturn` from there on, as far as it only loads from the frame. -/
def intrreturnReload : List Instr :=
  [lw 3 296 29,
   movi2s .iar 3,
   lw 3 300 29,
   movi2s .isr 3,
   lw 3 304 29,
   movi2s .cause 3,
   lw 3 308 29,
   movi2s .fault 3,
   lw 3 312 29,
   movi2s .ptbase 3,
   lw 3 316 29,
   movi2s .ptsize 3,
   lw 3 320 29,
   movi2s .ptbits 3,
   ld 0 168 29, ld 2 176 29, ld 4 184 29, ld 6 192 29, ld 8 200 29, ld 10 208 29,
   ld 12 216 29, ld 14 224 29, ld 16 232 29, ld 18 240 29, ld 20 248 29, ld 22 256 29,
   ld 24 264 29, ld 26 272 29, ld 28 280 29, ld 30 288 29,
   lw 2 48 29, lw 3 52 29, lw 4 56 29, lw 5 60 29, lw 6 64 29, lw 7 68 29, lw 8 72 29,
   lw 9 76 29, lw 10 80 29, lw 11 84 29, lw 12 88 29, lw 13 92 29, lw 14 96 29, lw 15 100 29,
   lw 16 104 29, lw 17 108 29, lw 18 112 29, lw 19 116 29, lw 20 120 29, lw 21 124 29,
   lw 22 128 29, lw 23 132 29, lw 24 136 29, lw 25 140 29, lw 26 144 29, lw 27 148 29,
   lw 28 152 29,
   lw 30 160 29,
   lw 31 164 29,
   addui 29 29 340]

/-- The rest of `_intrreturn`, without the store of the stack pointer it begins with. -/
def intrreturnEnd : List Instr :=
  [ori 1 29 0,
   lw 29 (-184) 1,
   lw 1 (-296) 1,
   rfe]

def intrreturn (currentPCB : Word) : List Instr :=
  (jal 0 :: disableIntrs) ++ (intrreturnUnlink currentPCB ++ (intrreturnReload ++
    (sw 4 1 29 :: intrreturnEnd)))

/-! ### The address of the variable -/

theorem lhi_addui (c : Word) :
    (c.extractLsb' 16 16 ++ (0 : BitVec 16)) + (c.extractLsb' 0 16).setWidth 32 = c := by
  apply BitVec.eq_of_toNat_eq
  have hc := c.isLt
  rw [BitVec.toNat_add, BitVec.toNat_append, BitVec.toNat_setWidth, BitVec.extractLsb'_toNat,
    BitVec.extractLsb'_toNat, ← Nat.shiftLeft_add_eq_or_of_lt (by decide),
    Nat.shiftRight_eq_div_pow, Nat.shiftLeft_eq]
  simp
  omega

end DlxOs.Context
