import DlxOs.Context.Listings
import DlxOs.Library.SymbolicRuns

/-!
# What the listings do to a frame

`_intrhandler` leaves a frame that holds every register and is the first of the
chain of its process; `_intrreturn` takes it off and loads every register. The
seventy offsets of the two listings are compared by running them on sketches.
-/

namespace DlxOs.Context

open Dlx Dlx.Instr State

variable {labels : ℕ → Word} {s : State} {base currentPCB pcb : Word}

/-- The frame holds the registers of the state. -/
structure Saved (μ : Memory) (base : Word) (s : State) : Prop where
  reg : ∀ i : Reg, i ≠ 0 → load μ (cell base (processStackIreg + i)) = s.r i
  freg : ∀ i : Reg, load μ (cell base (processStackFreg + i)) = s.f i
  special : ∀ x, ∀ k ∈ processStackSpecial x, load μ (cell base k) = s.special x

def frameArea (base : Word) : Set Word := area base (4 * processStackFrameSize)

def dlxStatusSysmode : Word := 0x40

def UserMode (status : Word) : Prop := status &&& dlxStatusSysmode = 0

instance (status : Word) : Decidable (UserMode status) := by unfold UserMode; infer_instance

/-- Where `_intrhandler` puts the frame: on the stack of the process in user mode, on the stack in
use in system mode. -/
def frameBase (pcb : Word) (s : State) : Word :=
  (if UserMode (s.special .isr) then load s.mem (pcb + 4) else s.r 29) - 340

def specials : List Special :=
  [.ir31, .iar, .isr, .cause, .fault, .ptbase, .ptsize, .ptbits, .status]

theorem mem_specials (x : Special) : x ∈ specials := by cases x <;> decide

/-! ### The parts that only touch the frame -/

/-- Every register is in its place, where r29 has been before. -/
def Saves (σ : Sketch) : Prop :=
  (∀ i : Reg, i ≠ 0 → i ≠ 29 → i ≠ 31 → σ.word (processStackIreg + i) = .reg i) ∧
    σ.word (processStackIreg + 29) = .word (processStackIreg + 29) ∧
    σ.word (processStackIreg + 31) = .special .ir31 ∧
    (∀ i : Reg, σ.word (processStackFreg + i) = .freg i) ∧
    (∀ x ∈ specials, ∀ k ∈ processStackSpecial x, σ.word k = .special x) ∧
    (∀ x ∈ specials, σ.special x = .special x) ∧ σ.reg 29 = .addr 0

/-- Every register has its word of the frame, but r1 and r29, and no word has changed. -/
def Reloads (σ : Sketch) : Prop :=
  (∀ i : Reg, i ≠ 0 → i ≠ 1 → i ≠ 29 → σ.reg i = .word (processStackIreg + i)) ∧
    (∀ i : Reg, σ.f i = .word (processStackFreg + i)) ∧
    (∀ x ∈ specials, ∀ k ∈ processStackSpecial x, σ.special x = .word k) ∧
    σ.reg 1 = .reg 1 ∧ σ.reg 29 = .addr 340 ∧ ∀ k < processStackFrameSize, σ.word k = .word k

/-- Registers r1 and r29 have their words of the frame, and the status is the one before. -/
def Ends (σ : Sketch) : Prop :=
  σ.reg 1 = .word (processStackIreg + 1) ∧ σ.reg 29 = .word (processStackIreg + 29) ∧
    (∀ i : Reg, i ≠ 0 → i ≠ 1 → i ≠ 29 → σ.reg i = .reg i) ∧ (∀ i : Reg, σ.f i = .freg i) ∧
    (∀ x ∈ specials, x ≠ .status → σ.special x = .special x) ∧ σ.special .status = .special .isr

instance (σ : Sketch) : Decidable (Saves σ) := by unfold Saves; infer_instance

instance (σ : Sketch) : Decidable (Reloads σ) := by unfold Reloads; infer_instance

instance (σ : Sketch) : Decidable (Ends σ) := by unfold Ends; infer_instance

/-- Code that a sketch has been run through, with what has been checked of the sketch at its end. -/
theorem checked_run (labels : ℕ → Word) {n : ℕ} {code : List Instr} {p : Sketch → Prop}
    [DecidablePred p] {sp : Reg} {offset : ℤ} (hn : 4 * n < 2 ^ 32)
    (hp : ((sketch n code (.start sp offset)).any fun σ => decide (p σ)) = true)
    (h : s.reg sp = base + BitVec.ofInt 32 offset) (rest : List Instr) :
    ∃ s' σ, run labels (code ++ rest) 0 s = run labels rest 0 s' ∧
      σ.Depicts base labels s n s' ∧ p σ := by
  obtain ⟨σ, e, hσ⟩ := (Option.any_eq_true _ _).mp hp
  obtain ⟨s', hs', d⟩ := sketch_run hn e (depicts_start h) rest
  exact ⟨s', σ, hs', d, of_decide_eq_true hσ⟩

theorem intrSaveReg_saves : ((sketch processStackFrameSize intrSaveReg (.start 29 0)).any
    fun σ => decide (Saves σ)) = true := by decide

theorem intrreturnReload_reloads :
    ((sketch processStackFrameSize intrreturnReload (.start 29 0)).any
      fun σ => decide (Reloads σ)) = true := by decide

theorem intrreturnEnd_ends : ((sketch processStackFrameSize intrreturnEnd (.start 29 340)).any
    fun σ => decide (Ends σ)) = true := by decide

theorem disableIntrs_returns : ((sketch 10 (.jal 0 :: disableIntrs) (.start 29 40)).any
    fun _ => decide True) = true := by decide

theorem intrSaveReg_run (labels : ℕ → Word) (h : s.r 29 = base) (rest : List Instr) :
    ∃ s', run labels (intrSaveReg ++ rest) 0 s = run labels rest 0 s' ∧ s'.r 29 = base ∧
      Saved s'.mem base ((s.setReg 31 (s.special .ir31)).setReg 29
        (load s.mem (cell base (processStackIreg + 29)))) ∧
      s'.special = s.special ∧ ∀ x ∉ frameArea base, s'.mem x = s.mem x := by
  have h₀ : s.reg 29 = base + BitVec.ofInt 32 0 := by
    rw [State.reg, if_neg (by decide), h]
    simp
  obtain ⟨s', σ, e, d, hr, h29, h31, hf, hx, hs, hb⟩ :=
    checked_run labels (by decide) intrSaveReg_saves h₀ rest
  have hword : ∀ k < processStackFrameSize,
      (σ.word k).Names base labels s (load s'.mem (cell base k)) := d.word
  refine ⟨s', e, ?_, ⟨?_, ?_, ?_⟩, ?_, d.outside⟩
  · have h₁ := d.reg 29
    rw [hb, Symbol.Names] at h₁
    simpa [State.reg] using h₁
  · intro i hi
    have hw := hword (processStackIreg + i) (by
      have := i.isLt
      simp only [processStackIreg, processStackFrameSize]
      omega)
    simp only [State.setReg, Function.update_apply]
    split_ifs with h₁ h₂
    · subst h₁
      rw [show ((29 : Reg) : ℕ) = 29 from rfl] at hw ⊢
      rwa [h29] at hw
    · subst h₂
      rw [show ((31 : Reg) : ℕ) = 31 from rfl] at hw ⊢
      rwa [h31] at hw
    · rw [hr i hi h₁ h₂, Symbol.Names, State.reg, if_neg hi] at hw
      exact hw
  · intro i
    have hw := hword (processStackFreg + i) (by
      have := i.isLt
      simp only [processStackFreg, processStackIreg, processStackFrameSize]
      omega)
    rwa [hf] at hw
  · intro x k hk
    have hw := hword k (by revert k; cases x <;> decide)
    rwa [hx x (mem_specials x) k hk] at hw
  · ext1 x
    have h₁ := d.special x
    rwa [hs x (mem_specials x)] at h₁

theorem intrreturnReload_run (labels : ℕ → Word) (h : s.r 29 = base) (rest : List Instr) :
    ∃ s', run labels (intrreturnReload ++ rest) 0 s = run labels rest 0 s' ∧
      (∀ i : Reg, i ≠ 0 → i ≠ 1 → i ≠ 29 →
        s'.r i = load s.mem (cell base (processStackIreg + i))) ∧
      (∀ i : Reg, s'.f i = load s.mem (cell base (processStackFreg + i))) ∧
      (∀ x, ∀ k ∈ processStackSpecial x, s'.special x = load s.mem (cell base k)) ∧
      s'.r 1 = s.r 1 ∧ s'.r 29 = base + 340 ∧
      (∀ k < processStackFrameSize, load s'.mem (cell base k) = load s.mem (cell base k)) ∧
      ∀ x ∉ frameArea base, s'.mem x = s.mem x := by
  have h₀ : s.reg 29 = base + BitVec.ofInt 32 0 := by
    rw [State.reg, if_neg (by decide), h]
    simp
  obtain ⟨s', σ, e, d, hr, hf, hx, h1, h29, hk⟩ :=
    checked_run labels (by decide) intrreturnReload_reloads h₀ rest
  refine ⟨s', e, ?_, ?_, ?_, ?_, ?_, ?_, d.outside⟩
  · intro i hi hi₁ hi₂
    have := d.reg i
    rwa [hr i hi hi₁ hi₂, State.reg, if_neg hi] at this
  · intro i
    have := d.freg i
    rwa [hf] at this
  · intro x k hxk
    have := d.special x
    rwa [hx x (mem_specials x) k hxk] at this
  · have := d.reg 1
    rwa [h1, State.reg, if_neg (by decide)] at this
  · have := d.reg 29
    rwa [h29, State.reg, if_neg (by decide)] at this
  · intro k hk'
    have := d.word k hk'
    rwa [hk k hk'] at this

theorem intrreturnEnd_run (labels : ℕ → Word) (h : s.r 29 = base + 340) :
    ∃ s', run labels intrreturnEnd 0 s = some s' ∧
      s'.r 1 = load s.mem (cell base (processStackIreg + 1)) ∧
      s'.r 29 = load s.mem (cell base (processStackIreg + 29)) ∧
      (∀ i : Reg, i ≠ 0 → i ≠ 1 → i ≠ 29 → s'.r i = s.r i) ∧ s'.f = s.f ∧
      (∀ x, x ≠ .status → s'.special x = s.special x) ∧ s'.special .status = s.special .isr ∧
      ∀ x ∉ frameArea base, s'.mem x = s.mem x := by
  have h₀ : s.reg 29 = base + BitVec.ofInt 32 340 := by
    rw [State.reg, if_neg (by decide), h]
    rfl
  obtain ⟨s', σ, e, d, h1, h29, hr, hf, hx, hs⟩ :=
    checked_run labels (by decide) intrreturnEnd_ends h₀ []
  rw [List.append_nil] at e
  refine ⟨s', e, ?_, ?_, ?_, ?_, ?_, ?_, d.outside⟩
  · have := d.reg 1
    rwa [h1, State.reg, if_neg (by decide)] at this
  · have := d.reg 29
    rwa [h29, State.reg, if_neg (by decide)] at this
  · intro i hi hi₁ hi₂
    have := d.reg i
    rwa [hr i hi hi₁ hi₂, Symbol.Names, State.reg, State.reg, if_neg hi, if_neg hi] at this
  · ext1 i
    have := d.freg i
    rwa [hf] at this
  · intro x hxs
    have := d.special x
    rwa [hx x (mem_specials x) hxs] at this
  · have := d.special .status
    rwa [hs] at this

theorem disableIntrs_run (labels : ℕ → Word) (h : s.r 29 = base + 40) (rest : List Instr) :
    ∃ s', run labels ((jal 0 :: disableIntrs) ++ rest) 0 s = run labels rest 0 s' ∧
      ∀ x ∉ area base 40, s'.mem x = s.mem x := by
  have h₀ : s.reg 29 = base + BitVec.ofInt 32 40 := by
    rw [State.reg, if_neg (by decide), h]
    rfl
  obtain ⟨s', σ, e, d, -⟩ := checked_run labels (by decide) disableIntrs_returns h₀ rest
  exact ⟨s', e, d.outside⟩

/-! ### The parts that go through the variable -/

theorem loadVariable_run (currentPCB : Word) {i : Reg} (hi : i ≠ 0) (rest : List Instr) :
    run labels (lhi i (currentPCB.extractLsb' 16 16) ::
      addui i i (currentPCB.extractLsb' 0 16) :: lw i 0 i :: rest) 0 s =
      run labels rest 0 (s.setReg i (load s.mem currentPCB)) := by
  rw [run_cons rfl, run_cons rfl, run_cons rfl]
  simp only [at', reg_setReg, setReg_setReg, mem_setReg, if_neg hi, if_true, lhi_addui,
    BitVec.ofInt_ofNat, BitVec.add_zero]

theorem mode_run (skip : ℕ) (rest : List Instr) :
    run labels (movs2i 31 .isr :: andi 31 31 0x40 :: bnez 31 skip :: rest) 0 s =
      run labels rest (if UserMode (s.special .isr) then 0 else skip)
        (s.setReg 31 (s.special .isr &&& 0x40)) := by
  rw [run_cons rfl, run_cons rfl, run_cons rfl]
  simp only [reg_setReg, setReg_setReg, if_true, ne_eq, ite_not]
  rfl

theorem userStack_run (h : load s.mem currentPCB = pcb) (rest : List Instr) :
    run labels (lhi 31 (currentPCB.extractLsb' 16 16) :: addui 31 31 (currentPCB.extractLsb' 0 16) ::
      lw 31 0 31 :: lw 31 4 31 :: sw (-184) 31 29 :: ori 29 31 0 :: beqz 0 1 :: sw (-184) 29 29 ::
      subui 29 29 340 :: rest) 0 s =
      run labels rest 0 (((s.setReg 31 (load s.mem (pcb + 4))).store
        (load s.mem (pcb + 4) + BitVec.ofInt 32 (-184)) (s.reg 29)).setReg 29
          (load s.mem (pcb + 4) - 340)) := by
  rw [loadVariable_run _ (by decide), h, run_cons rfl]
  simp only [mem_setReg, at', reg_setReg, Fin.reduceEq, reduceIte, BitVec.ofInt_ofNat,
    setReg_setReg]
  rw [run_cons rfl, run_cons rfl, run_cons rfl]
  simp only [at', reg_setReg, Fin.reduceEq, reduceIte, reg_store,
    show (0 : BitVec 16).setWidth 32 = 0#32 from rfl, BitVec.or_zero]
  rw [run, run_cons rfl]
  simp

theorem systemStack_run (rest : List Instr) :
    run labels (sw (-184) 29 29 :: subui 29 29 340 :: rest) 0 s =
      run labels rest 0 ((s.store (s.reg 29 + BitVec.ofInt 32 (-184)) (s.reg 29)).setReg 29
        (s.reg 29 - 340)) := by
  rw [run_cons rfl, run_cons rfl]
  rfl

theorem cell_sub (a : Word) :
    cell (a - 340) (processStackIreg + 29) = a + BitVec.ofInt 32 (-184) := by
  rw [show BitVec.ofInt 32 (-184) = (4294967112#32) from rfl]
  simp only [cell, processStackIreg]
  bv_omega

theorem intrhandlerStack_run (labels : ℕ → Word) (h : load s.mem currentPCB = pcb)
    (rest : List Instr) :
    ∃ s', run labels (intrhandlerStack currentPCB ++ rest) 0 s = run labels rest 0 s' ∧
      s'.r 29 = frameBase pcb s ∧ (∀ i, i ≠ 29 → i ≠ 31 → s'.r i = s.r i) ∧ s'.f = s.f ∧
      s'.special = s.special ∧
      s'.mem = store s.mem (cell (frameBase pcb s) (processStackIreg + 29)) (s.r 29) := by
  simp only [intrhandlerStack, List.cons_append, List.nil_append]
  rw [mode_run]
  by_cases hu : UserMode (s.special .isr)
  · rw [if_pos hu, userStack_run (s := s.setReg 31 _) h, frameBase, if_pos hu, cell_sub]
    refine ⟨_, rfl, ?_, ?_, rfl, rfl, rfl⟩
    · simp
    · intro i h₁ h₂
      simp [h₁, h₂]
  · rw [if_neg hu, run_skip, frameBase, if_neg hu, cell_sub]
    simp only [List.drop]
    rw [systemStack_run]
    refine ⟨_, rfl, ?_, ?_, rfl, rfl, rfl⟩
    · simp [reg_of_ne]
    · intro i h₁ h₂
      simp [h₁, h₂]

theorem intrhandlerLink_run (labels : ℕ → Word) (h : load s.mem currentPCB = pcb) :
    ∃ s', run labels (intrhandlerLink currentPCB) 0 s = some s' ∧ s'.special = s.special ∧
      s'.mem = store (store s.mem (cell (s.r 29) processStackPrevFrame) (load s.mem pcb)) pcb
        (s.r 29) := by
  rw [intrhandlerLink, loadVariable_run _ (by decide), h, run_cons rfl, run_cons rfl, run_cons rfl,
    run]
  refine ⟨_, rfl, rfl, ?_⟩
  simp [at', reg_of_ne, cell, processStackPrevFrame]

theorem intrreturnUnlink_run (labels : ℕ → Word) (h : load s.mem currentPCB = pcb)
    (rest : List Instr) :
    ∃ s', run labels (intrreturnUnlink currentPCB ++ rest) 0 s = run labels rest 0 s' ∧
      s'.r 1 = pcb ∧ s'.r 29 = load s.mem pcb ∧
      s'.mem = store s.mem pcb (load s.mem (cell (load s.mem pcb) processStackPrevFrame)) := by
  simp only [intrreturnUnlink, List.cons_append, List.nil_append]
  rw [loadVariable_run _ (by decide), h, run_cons rfl, run_cons rfl, run_cons rfl]
  refine ⟨_, rfl, ?_⟩
  simp [at', cell, processStackPrevFrame]
/-! ### The listings as wholes -/

/-- The frame, the variable `_currentPCB` and the two pointers of the process do not overlap. -/
structure Apart (currentPCB pcb base : Word) : Prop where
  variable_pcb : Disjoint (area currentPCB 4) (area pcb 8)
  frame_variable : Disjoint (frameArea base) (area currentPCB 4)
  frame_pcb : Disjoint (frameArea base) (area pcb 8)

theorem Saved.congr {μ μ' : Memory} (h : Saved μ base s)
    (hμ : ∀ k < processStackFrameSize, k ≠ processStackPrevFrame →
      load μ' (cell base k) = load μ (cell base k)) : Saved μ' base s := by
  constructor
  · intro i hi
    have h₁ := i.isLt
    have h₂ : (i : ℕ) ≠ 0 := fun h => hi (Fin.ext h)
    rw [hμ _ (by simp only [processStackIreg, processStackFrameSize]; omega)
      (by simp only [processStackIreg, processStackPrevFrame]; omega), h.reg i hi]
  · intro i
    have h₁ := i.isLt
    rw [hμ _ (by simp only [processStackFreg, processStackIreg, processStackFrameSize]; omega)
      (by simp only [processStackFreg, processStackIreg, processStackPrevFrame]; omega), h.freg i]
  · intro x k hk
    have hlt : k < processStackFrameSize ∧ k ≠ processStackPrevFrame := by
      revert k
      cases x <;> decide
    rw [hμ k hlt.1 hlt.2, h.special x k hk]

theorem frame_cell {k : ℕ} (hk : k < processStackFrameSize) :
    area (cell base k) 4 ⊆ frameArea base := cell_subset hk (by decide)

theorem pointer_subset (pcb : Word) : area pcb 4 ⊆ area pcb 8 := by
  intro x hx
  rw [mem_area] at *
  omega

theorem second_pointer_subset (pcb : Word) : area (pcb + 4) 4 ⊆ area pcb 8 :=
  area_subset (k := 4) (by decide) (by decide)

theorem pointers_disjoint (pcb : Word) : Disjoint (area pcb 4) (area (pcb + 4) 4) := by
  refine Set.disjoint_left.mpr fun x hx hx' => ?_
  rw [mem_area] at *
  bv_omega

/-- `_intrhandler` saves the context in a frame and puts it in front of the chain. -/
theorem intrhandler_run (labels : ℕ → Word) (h : load s.mem currentPCB = pcb)
    (d : Apart currentPCB pcb (frameBase pcb s)) :
    ∃ s', run labels (intrhandler currentPCB) 0 s = some s' ∧
      Saved s'.mem (frameBase pcb s) (s.setReg 31 (s.special .ir31)) ∧
      load s'.mem (cell (frameBase pcb s) processStackPrevFrame) = load s.mem pcb ∧
      load s'.mem pcb = frameBase pcb s ∧ s'.special = s.special ∧
      ∀ x, x ∉ frameArea (frameBase pcb s) → x ∉ area pcb 4 → s'.mem x = s.mem x := by
  set base := frameBase pcb s with hbase
  obtain ⟨s₁, e₁, b₁, r₁, f₁, x₁, m₁⟩ :=
    intrhandlerStack_run labels h (intrSaveReg ++ intrhandlerLink currentPCB)
  rw [← hbase] at b₁ m₁
  obtain ⟨s₂, e₂, b₂, v₂, x₂, m₂⟩ := intrSaveReg_run labels b₁ (intrhandlerLink currentPCB)
  have out₂ : ∀ x ∉ frameArea base, s₂.mem x = s.mem x := by
    intro x hx
    rw [m₂ x hx, m₁]
    exact store_outside fun hx' => hx (frame_cell (by decide) hx')
  have hvar : load s₂.mem currentPCB = pcb := by
    rw [← h]
    exact load_congr fun x hx => out₂ x fun hx' => Set.disjoint_left.mp d.frame_variable hx' hx
  have hpcb : load s₂.mem pcb = load s.mem pcb :=
    load_congr fun x hx => out₂ x fun hx' =>
      Set.disjoint_left.mp d.frame_pcb hx' (pointer_subset pcb hx)
  obtain ⟨s₃, e₃, x₃, m₃⟩ := intrhandlerLink_run labels hvar
  rw [b₂, hpcb] at m₃
  have hfar : ∀ k < processStackFrameSize, Disjoint (area (cell base k) 4) (area pcb 4) :=
    fun k hk => d.frame_pcb.mono (frame_cell hk) (pointer_subset pcb)
  refine ⟨s₃, (e₁.trans e₂).trans e₃, ?_, ?_, ?_, x₃.trans (x₂.trans x₁), ?_⟩
  · have hr : Saved s₂.mem base (s.setReg 31 (s.special .ir31)) := by
      refine ⟨fun i hi => ?_, fun i => ?_, fun x k hk => ?_⟩
      · rw [v₂.reg i hi]
        simp only [r_setReg, x₁]
        split_ifs with h₁ h₂ h₂
        · rw [h₂] at h₁
          exact absurd h₁ (by decide)
        · rw [m₁, load_store, h₁]
        · rfl
        · exact r₁ i h₁ h₂
      · rw [v₂.freg i]
        exact congrFun f₁ i
      · rw [v₂.special x k hk]
        exact congrFun x₁ x
    refine hr.congr fun k hk hne => ?_
    rw [m₃, load_store_of_disjoint (hfar k hk), load_store_of_disjoint]
    exact cell_disjoint hk (by decide) (by decide) hne
  · rw [m₃, load_store_of_disjoint (hfar _ (by decide)), load_store]
  · rw [m₃, load_store]
  · intro x hx hx'
    rw [m₃, store_outside hx', store_outside fun h' => hx (frame_cell (by decide) h'), out₂ x hx]

/-- `_intrreturn` loads the context from the first frame of the chain and takes it off; the stack
below its own may change. -/
theorem intrreturn_run (labels : ℕ → Word) (h : load s.mem currentPCB = pcb)
    (hb : load s.mem pcb = base)
    (d : Apart currentPCB pcb base)
    (hstack : Disjoint (area (s.r 29 - 40) 40)
      (frameArea base ∪ area currentPCB 4 ∪ area pcb 8)) :
    ∃ s', run labels (intrreturn currentPCB) 0 s = some s' ∧ Saved s.mem base s' ∧
      s'.special .status = s'.special .isr ∧
      load s'.mem pcb = load s.mem (cell base processStackPrevFrame) ∧
      load s'.mem (pcb + 4) = base + 340 ∧
      ∀ x, x ∉ area (s.r 29 - 40) 40 → x ∉ frameArea base → x ∉ area pcb 8 →
        s'.mem x = s.mem x := by
  rw [Set.disjoint_union_right, Set.disjoint_union_right] at hstack
  obtain ⟨⟨stack_frame, stack_var⟩, stack_pcb⟩ := hstack
  -- interrupts are disabled, on the stack
  have hsp : s.r 29 = (s.r 29 - 40) + 40 := by bv_omega
  obtain ⟨s₁, e₁, m₁⟩ := disableIntrs_run labels hsp (intrreturnUnlink currentPCB ++
    (intrreturnReload ++ (sw 4 1 29 :: intrreturnEnd)))
  have off₁ : ∀ {a : Word}, Disjoint (area (s.r 29 - 40) 40) (area a 4) →
      load s₁.mem a = load s.mem a := fun hd =>
    load_congr fun x hx => m₁ x fun hx' => Set.disjoint_left.mp hd hx' hx
  have cell₁ : ∀ k < processStackFrameSize, load s₁.mem (cell base k) = load s.mem (cell base k) :=
    fun k hk => off₁ (stack_frame.mono_right (frame_cell hk))
  have pcb₁ : load s₁.mem pcb = base := (off₁ (stack_pcb.mono_right (pointer_subset pcb))).trans hb
  -- the frame is taken off the chain
  obtain ⟨s₂, e₂, r₂, b₂, m₂⟩ := intrreturnUnlink_run labels
    ((off₁ stack_var).trans h) (intrreturnReload ++ (sw 4 1 29 :: intrreturnEnd))
  rw [pcb₁] at b₂ m₂
  rw [cell₁ _ (by decide)] at m₂
  have cell₂ : ∀ k < processStackFrameSize, load s₂.mem (cell base k) = load s.mem (cell base k) := by
    intro k hk
    rw [m₂, load_store_of_disjoint (d.frame_pcb.mono (frame_cell hk) (pointer_subset pcb)),
      cell₁ k hk]
  have not_frame : ∀ {a : Word}, area a 4 ⊆ area pcb 8 → ∀ {x}, x ∈ area a 4 → x ∉ frameArea base :=
    fun ha _ hx hx' => Set.disjoint_left.mp d.frame_pcb hx' (ha hx)
  -- the registers are loaded, and the stack pointer is stored
  obtain ⟨s₃, e₃, r₃, f₃, x₃, p₃, b₃, c₃, m₃⟩ := intrreturnReload_run labels b₂
    (sw 4 1 29 :: intrreturnEnd)
  have hat : s₃.at' 4 1 = pcb + 4 := by
    rw [at', reg_of_ne (by decide), p₃, r₂]
    rfl
  have cell₄ : ∀ k < processStackFrameSize,
      load (s₃.store (s₃.at' 4 1) (s₃.reg 29)).mem (cell base k) = load s.mem (cell base k) := by
    intro k hk
    rw [hat, mem_store, load_store_of_disjoint
      (d.frame_pcb.mono (frame_cell hk) (second_pointer_subset pcb)), c₃ k hk, cell₂ k hk]
  obtain ⟨s₅, e₅, r1, r29, r₅, f₅, x₅, st₅, m₅⟩ := intrreturnEnd_run labels
    (s := s₃.store (s₃.at' 4 1) (s₃.reg 29)) b₃
  rw [cell₄ _ (by decide)] at r1 r29
  refine ⟨s₅, ?_, ⟨?_, ?_, ?_⟩, ?_, ?_, ?_, ?_⟩
  · rw [intrreturn, e₁, e₂, e₃, run_cons rfl, e₅]
  · intro i hi
    by_cases h₁ : i = 1
    · rw [h₁, r1]
      rfl
    · by_cases h₂ : i = 29
      · rw [h₂, r29]
        rfl
      · rw [r₅ i hi h₁ h₂, r_store, r₃ i hi h₁ h₂, cell₂]
        have := i.isLt
        simp only [processStackIreg, processStackFrameSize]
        omega
  · intro i
    rw [f₅, f_store, f₃ i, cell₂]
    have := i.isLt
    simp only [processStackFreg, processStackIreg, processStackFrameSize]
    omega
  · intro x k hk
    have hx : x ≠ .status ∧ k < processStackFrameSize := by
      revert k
      cases x <;> decide
    rw [x₅ x hx.1, special_store, x₃ x k hk, cell₂ k hx.2]
  · rw [st₅, x₅ .isr (by decide)]
  · rw [load_congr fun x hx => m₅ x (not_frame (pointer_subset pcb) hx), hat, mem_store,
      load_store_of_disjoint (pointers_disjoint pcb),
      load_congr fun x hx => m₃ x (not_frame (pointer_subset pcb) hx), m₂, load_store]
  · rw [load_congr fun x hx => m₅ x (not_frame (second_pointer_subset pcb) hx), hat, mem_store,
      load_store, reg_of_ne (by decide), b₃]
  · intro x hs hf hp
    rw [m₅ x hf, hat, mem_store, store_outside fun hx => hp (second_pointer_subset pcb hx), m₃ x hf,
      m₂, store_outside fun hx => hp (pointer_subset pcb hx), m₁ x hs]

end DlxOs.Context
