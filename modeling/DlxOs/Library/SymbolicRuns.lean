import DlxOs.Library.Dlx

/-!
# Symbolic runs of straight-line code

A sketch of a state tells for each register, and for each word of one area of
memory, which word of the state at the start it holds, or which address of the
area. Code that only loads and stores in the area is run on sketches; what the
sketch at the end tells is true of the run itself.
-/

namespace DlxOs.Dlx

/-- What is known of a word: where it was at the start, which address of the area or which label it
is, or nothing. -/
inductive Symbol
  | reg (i : Reg)
  | freg (i : Reg)
  | special (x : Special)
  | word (k : ℕ)
  | addr (offset : ℤ)
  | label (n : ℕ)
  | any
  deriving DecidableEq

namespace Symbol

def plus (d : ℤ) : Symbol → Symbol
  | addr o => addr (o + d)
  | _ => any

end Symbol

structure Sketch where
  r : Reg → Symbol
  f : Reg → Symbol
  special : Special → Symbol
  word : ℕ → Symbol

namespace Sketch

variable (σ : Sketch)

def reg (i : Reg) : Symbol := if i = 0 then .any else σ.r i

def setReg (i : Reg) (x : Symbol) : Sketch := { σ with r := Function.update σ.r i x }

def setFreg (i : Reg) (x : Symbol) : Sketch := { σ with f := Function.update σ.f i x }

def setSpecial (y : Special) (x : Symbol) : Sketch :=
  { σ with special := Function.update σ.special y x }

def setWord (k : ℕ) (x : Symbol) : Sketch := { σ with word := Function.update σ.word k x }

/-- The word of the area that a load or a store is about. -/
def place (n : ℕ) (offset : ℤ) (rs : Reg) : Option ℕ :=
  match σ.reg rs with
  | .addr o =>
      if 0 ≤ o + offset ∧ (o + offset) % 4 = 0 ∧ (o + offset) / 4 < n then
        some ((o + offset) / 4).toNat
      else none
  | _ => none

end Sketch

/-- An instruction on sketches; none, if it leaves the area of `n` words, or branches. -/
def Instr.sketch (n : ℕ) (σ : Sketch) : Instr → Option Sketch
  | nop => some σ
  | lw rd offset rs => (σ.place n offset rs).map fun k => σ.setReg rd (σ.word k)
  | sw offset rs rd => (σ.place n offset rs).map fun k => σ.setWord k (σ.reg rd)
  | ld fd offset rs => (σ.place (n - 1) offset rs).map fun k =>
      (σ.setFreg fd (σ.word k)).setFreg (fd + 1) (σ.word (k + 1))
  | sd offset rs fd => (σ.place (n - 1) offset rs).map fun k =>
      (σ.setWord k (σ.f fd)).setWord (k + 1) (σ.f (fd + 1))
  | movs2i rd x => some (σ.setReg rd (σ.special x))
  | movi2s x rs => some (σ.setSpecial x (σ.reg rs))
  | lhi rd _ => some (σ.setReg rd .any)
  | add rd rs rt => some (σ.setReg rd (if rs = 0 then σ.reg rt else .any))
  | addi rd rs imm => some (σ.setReg rd ((σ.reg rs).plus imm))
  | addui rd rs imm => some (σ.setReg rd ((σ.reg rs).plus imm.toNat))
  | subui rd rs imm => some (σ.setReg rd ((σ.reg rs).plus (-imm.toNat)))
  | or rd _ _ => some (σ.setReg rd .any)
  | ori rd rs imm => some (σ.setReg rd (if imm = 0 then σ.reg rs else .any))
  | andi rd _ _ => some (σ.setReg rd .any)
  | beqz _ _ => none
  | bnez _ _ => none
  | jal label => some (σ.setReg 31 (.label label))
  | jr rs label => if σ.reg rs = .label label then some σ else none
  | rfe => some (σ.setSpecial .status (σ.special .isr))

def sketch (n : ℕ) : List Instr → Sketch → Option Sketch
  | [], σ => some σ
  | i :: code, σ => (i.sketch n σ).bind (sketch n code)

/-! ### What sketches tell -/

section Meaning

variable (base : Word) (labels : ℕ → Word) (s₀ : State)

def cell (k : ℕ) : Word := base + BitVec.ofNat 32 (4 * k)

def Symbol.Names : Symbol → Word → Prop
  | reg i, w => w = s₀.reg i
  | freg i, w => w = s₀.f i
  | special x, w => w = s₀.special x
  | word k, w => w = load s₀.mem (cell base k)
  | addr offset, w => w = base + BitVec.ofInt 32 offset
  | label n, w => w = labels n
  | any, _ => True

/-- Everything the sketch tells is so, and the memory outside the area is as at the start. -/
structure Sketch.Depicts (n : ℕ) (σ : Sketch) (s : State) : Prop where
  reg : ∀ i, (σ.reg i).Names base labels s₀ (s.reg i)
  freg : ∀ i, (σ.f i).Names base labels s₀ (s.f i)
  special : ∀ x, (σ.special x).Names base labels s₀ (s.special x)
  word : ∀ k < n, (σ.word k).Names base labels s₀ (load s.mem (cell base k))
  outside : ∀ x ∉ area base (4 * n), s.mem x = s₀.mem x

end Meaning

variable {base : Word} {labels : ℕ → Word} {s₀ s s' : State} {σ σ' : Sketch} {n k l : ℕ}

theorem cell_disjoint (hk : k < n) (hl : l < n) (hn : 4 * n < 2 ^ 32) (h : k ≠ l) :
    Disjoint (area (cell base k) 4) (area (cell base l) 4) := by
  rcases Nat.lt_or_gt_of_ne h with h | h
  · exact area_disjoint (by omega) (by omega)
  · exact (area_disjoint (by omega) (by omega)).symm

theorem cell_subset (hk : k < n) (hn : 4 * n < 2 ^ 32) :
    area (cell base k) 4 ⊆ area base (4 * n) := area_subset (by omega) hn

theorem cell_succ (k : ℕ) : cell base k + 4 = cell base (k + 1) := by
  simp only [cell]
  bv_omega

theorem Symbol.Names.plus {x : Symbol} {w : Word} (d : ℤ) (h : x.Names base labels s₀ w) :
    (x.plus d).Names base labels s₀ (w + BitVec.ofInt 32 d) := by
  cases x with
  | addr o =>
      rw [Symbol.Names] at h
      simp only [Symbol.plus, Symbol.Names, h, BitVec.add_assoc, BitVec.ofInt_add]
  | _ => trivial

namespace Sketch.Depicts

theorem setReg (h : σ.Depicts base labels s₀ n s) {x : Symbol} {v : Word} (rd : Reg)
    (hx : x.Names base labels s₀ v) :
    (σ.setReg rd x).Depicts base labels s₀ n (s.setReg rd v) := by
  constructor
  · intro i
    by_cases h₀ : i = 0
    · simp only [Sketch.reg, h₀, if_true]
      trivial
    · have hi := h.reg i
      simp only [Sketch.reg, State.reg, if_neg h₀] at hi
      simp only [Sketch.reg, State.reg, if_neg h₀, Sketch.setReg, State.setReg,
        Function.update_apply]
      split_ifs
      · exact hx
      · exact hi
  · exact h.freg
  · exact h.special
  · exact h.word
  · exact h.outside

theorem setFreg (h : σ.Depicts base labels s₀ n s) {x : Symbol} {v : Word} (fd : Reg)
    (hx : x.Names base labels s₀ v) :
    (σ.setFreg fd x).Depicts base labels s₀ n (s.setFreg fd v) := by
  constructor
  · exact h.reg
  · intro i
    simp only [Sketch.setFreg, State.setFreg, Function.update_apply]
    split_ifs
    · exact hx
    · exact h.freg i
  · exact h.special
  · exact h.word
  · exact h.outside

theorem setSpecial (h : σ.Depicts base labels s₀ n s) {x : Symbol} {v : Word} (y : Special)
    (hx : x.Names base labels s₀ v) :
    (σ.setSpecial y x).Depicts base labels s₀ n (s.setSpecial y v) := by
  constructor
  · exact h.reg
  · exact h.freg
  · intro z
    simp only [Sketch.setSpecial, State.setSpecial, Function.update_apply]
    split_ifs
    · exact hx
    · exact h.special z
  · exact h.word
  · exact h.outside

theorem store (hn : 4 * n < 2 ^ 32) (h : σ.Depicts base labels s₀ n s) {x : Symbol} {v : Word}
    (hk : k < n) (hx : x.Names base labels s₀ v) :
    (σ.setWord k x).Depicts base labels s₀ n (s.store (cell base k) v) := by
  constructor
  · exact h.reg
  · exact h.freg
  · exact h.special
  · intro l hl
    simp only [Sketch.setWord, State.store, Function.update_apply]
    split_ifs with hlk
    · rw [hlk, load_store]
      exact hx
    · rw [load_store_of_disjoint (cell_disjoint hl hk hn hlk)]
      exact h.word l hl
  · intro y hy
    rw [← h.outside y hy]
    exact store_outside fun hy' => hy (cell_subset hk hn hy')

theorem place (h : σ.Depicts base labels s₀ n s) {m : ℕ} {offset : ℤ} {rs : Reg}
    (e : σ.place m offset rs = some k) : k < m ∧ s.at' offset rs = cell base k := by
  have hr := h.reg rs
  unfold Sketch.place at e
  split at e
  next o hσ =>
    split at e
    next ho =>
      rw [hσ, Symbol.Names] at hr
      have hk : o + offset = ((4 * k : ℕ) : ℤ) := by
        have := Option.some.inj e
        omega
      constructor
      · omega
      · rw [State.at', hr, BitVec.add_assoc, ← BitVec.ofInt_add, hk, BitVec.ofInt_natCast]
        rfl
    next => exact absurd e (by simp only [reduceCtorEq, not_false_eq_true])
  next => exact absurd e (by simp only [reduceCtorEq, not_false_eq_true])

end Sketch.Depicts

/-- What an instruction does is what it does to the sketch. -/
theorem sketch_exec (hn : 4 * n < 2 ^ 32) {i : Instr} (e : i.sketch n σ = some σ')
    (h : σ.Depicts base labels s₀ n s) :
    ∃ s', i.exec labels s = some (0, s') ∧ σ'.Depicts base labels s₀ n s' := by
  cases i with
  | nop =>
      cases e
      exact ⟨s, rfl, h⟩
  | lw rd offset rs =>
      obtain ⟨k, ek, rfl⟩ := Option.map_eq_some_iff.mp e
      obtain ⟨hk, ha⟩ := h.place ek
      refine ⟨_, rfl, h.setReg rd ?_⟩
      rw [ha]
      exact h.word k hk
  | sw offset rs rd =>
      obtain ⟨k, ek, rfl⟩ := Option.map_eq_some_iff.mp e
      obtain ⟨hk, ha⟩ := h.place ek
      refine ⟨_, rfl, ?_⟩
      rw [ha]
      exact h.store hn hk (h.reg rd)
  | ld fd offset rs =>
      obtain ⟨k, ek, rfl⟩ := Option.map_eq_some_iff.mp e
      obtain ⟨hk, ha⟩ := h.place ek
      refine ⟨_, rfl, (h.setFreg fd ?_).setFreg (fd + 1) ?_⟩
      · rw [ha]
        exact h.word k (by omega)
      · rw [ha, cell_succ]
        exact h.word (k + 1) (by omega)
  | sd offset rs fd =>
      obtain ⟨k, ek, rfl⟩ := Option.map_eq_some_iff.mp e
      obtain ⟨hk, ha⟩ := h.place ek
      refine ⟨_, rfl, ?_⟩
      rw [ha, cell_succ]
      exact (h.store hn (by omega) (h.freg fd)).store hn (by omega) (h.freg (fd + 1))
  | movs2i rd x =>
      cases e
      exact ⟨_, rfl, h.setReg rd (h.special x)⟩
  | movi2s x rs =>
      cases e
      exact ⟨_, rfl, h.setSpecial x (h.reg rs)⟩
  | lhi rd imm =>
      cases e
      exact ⟨_, rfl, h.setReg rd trivial⟩
  | add rd rs rt =>
      cases e
      refine ⟨_, rfl, h.setReg rd ?_⟩
      split_ifs with h₀
      · rw [h₀, State.reg, if_pos rfl, show (0 : Word) + s.reg rt = s.reg rt from BitVec.zero_add _]
        exact h.reg rt
      · trivial
  | addi rd rs imm =>
      cases e
      exact ⟨_, rfl, h.setReg rd ((h.reg rs).plus imm)⟩
  | addui rd rs imm =>
      cases e
      refine ⟨_, rfl, h.setReg rd ?_⟩
      have hd : imm.setWidth 32 = BitVec.ofInt 32 imm.toNat := by
        rw [BitVec.ofInt_natCast]
        bv_omega
      rw [hd]
      exact (h.reg rs).plus imm.toNat
  | subui rd rs imm =>
      cases e
      refine ⟨_, rfl, h.setReg rd ?_⟩
      have hd : s.reg rs - imm.setWidth 32 = s.reg rs + BitVec.ofInt 32 (-imm.toNat) := by
        rw [BitVec.ofInt_neg, BitVec.ofInt_natCast]
        bv_omega
      rw [hd]
      exact (h.reg rs).plus (-imm.toNat)
  | or rd rs rt =>
      cases e
      exact ⟨_, rfl, h.setReg rd trivial⟩
  | ori rd rs imm =>
      cases e
      refine ⟨_, rfl, h.setReg rd ?_⟩
      split_ifs with h₀
      · rw [h₀, show s.reg rs ||| (0 : BitVec 16).setWidth 32 = s.reg rs from BitVec.or_zero]
        exact h.reg rs
      · trivial
  | andi rd rs imm =>
      cases e
      exact ⟨_, rfl, h.setReg rd trivial⟩
  | beqz rs skip => cases e
  | bnez rs skip => cases e
  | jal label =>
      cases e
      exact ⟨_, rfl, h.setReg 31 rfl⟩
  | jr rs label =>
      obtain ⟨hr, eσ⟩ := Option.ite_none_right_eq_some.mp e
      cases eσ
      have hs := h.reg rs
      rw [hr, Symbol.Names] at hs
      exact ⟨s, if_pos hs, h⟩
  | rfe =>
      cases e
      exact ⟨_, rfl, h.setSpecial .status (h.special .isr)⟩

/-- Code that runs on a sketch runs, and the sketch at the end depicts the state at its end. -/
theorem sketch_run (hn : 4 * n < 2 ^ 32) {code : List Instr} (e : sketch n code σ = some σ')
    (h : σ.Depicts base labels s₀ n s) (rest : List Instr) :
    ∃ s', run labels (code ++ rest) 0 s = run labels rest 0 s' ∧
      σ'.Depicts base labels s₀ n s' := by
  induction code generalizing σ s with
  | nil =>
      cases e
      exact ⟨s, rfl, h⟩
  | cons i code ih =>
      obtain ⟨σ₁, e₁, e⟩ := Option.bind_eq_some_iff.mp e
      obtain ⟨s₁, hs₁, h₁⟩ := sketch_exec hn e₁ h
      obtain ⟨s₂, hs₂, h₂⟩ := ih e h₁
      exact ⟨s₂, (run_cons hs₁).trans hs₂, h₂⟩

/-! ### The sketch at the start -/

/-- Nothing has moved yet, and the register holds an address of the area. -/
def Sketch.start (sp : Reg) (offset : ℤ) : Sketch where
  r i := if i = sp then .addr offset else .reg i
  f := .freg
  special := .special
  word := .word

theorem depicts_start {sp : Reg} {offset : ℤ} (h : s.reg sp = base + BitVec.ofInt 32 offset) :
    (Sketch.start sp offset).Depicts base labels s n s := by
  constructor
  · intro i
    by_cases h₀ : i = 0
    · simp only [Sketch.reg, h₀, if_true]
      trivial
    · simp only [Sketch.reg, Sketch.start, if_neg h₀]
      split_ifs with hi
      · rw [hi]
        exact h
      · rfl
  · exact fun _ => rfl
  · exact fun _ => rfl
  · exact fun _ _ => rfl
  · exact fun _ _ => rfl

end DlxOs.Dlx
