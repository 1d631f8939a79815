import DlxOs.Context.Runs
import Mathlib.Data.List.Chain

/-!
# Every return brings its own entry back

The frames of all processes lie apart, each holds the context of its entry, and
those of one process form a chain that its control block starts. In user mode
the process has no frame, and the place of its next one is free.
-/

namespace DlxOs.Context

open Dlx Transition

variable {ι : Type*} {L : Layout ι} {o o' : Os ι} {p q : ι}

/-! ### What a frame holds -/

structure Entry.Held (e : Entry) (μ : Memory) : Prop where
  saved : Saved μ e.base e.restored
  prevFrame : load μ (cell e.base processStackPrevFrame) = e.currentSavedFrame

theorem Entry.Held.congr {e : Entry} {μ μ' : Memory} (h : e.Held μ)
    (hμ : ∀ x ∈ frameArea e.base, μ' x = μ x) : e.Held μ' := by
  have hcell : ∀ k < processStackFrameSize, load μ' (cell e.base k) = load μ (cell e.base k) :=
    fun k hk => load_congr fun x hx => hμ x (frame_cell hk hx)
  constructor
  · exact h.saved.congr fun k hk _ => hcell k hk
  · exact (hcell _ (by decide)).trans h.prevFrame

/-! ### How the entries lie -/

/-- The entries of all processes, without what their frames hold. -/
structure Nested (L : Layout ι) (entries : ι → List Entry) : Prop where
  kernel : ∀ p, ∀ e ∈ entries p, Disjoint (frameArea e.base) L.variables
  within : ∀ p, (entries p).Pairwise fun e e' => Disjoint (frameArea e.base) (frameArea e'.base)
  across : ∀ p q, p ≠ q → ∀ e ∈ entries p, ∀ e' ∈ entries q,
    Disjoint (frameArea e.base) (frameArea e'.base)
  chain : ∀ p, (entries p).IsChain fun e e' => e.currentSavedFrame = e'.base
  first : ∀ p, (entries p).Pairwise fun e _ => ¬ e.FromUser
  stack : ∀ p, ∀ e ∈ entries p, e.FromUser → e.sysStackPtr = e.base + 340

namespace Nested

variable [DecidableEq ι] {entries : ι → List Entry} {e e' : Entry} {es : List Entry}

theorem mem_update {e₀ : Entry} (h : e₀ ∈ Function.update entries p es q) :
    q = p ∧ e₀ ∈ es ∨ q ≠ p ∧ e₀ ∈ entries q := by
  by_cases hq : q = p
  · subst hq
    exact Or.inl ⟨rfl, by simpa using h⟩
  · exact Or.inr ⟨hq, by simpa [hq] using h⟩

/-- The entries of one process are replaced by others that lie apart from the rest. -/
theorem update (h : Nested L entries) (kernel : ∀ e ∈ es, Disjoint (frameArea e.base) L.variables)
    (within : es.Pairwise fun e e' => Disjoint (frameArea e.base) (frameArea e'.base))
    (across : ∀ q ≠ p, ∀ e ∈ es, ∀ e' ∈ entries q, Disjoint (frameArea e.base) (frameArea e'.base))
    (chain : es.IsChain fun e e' => e.currentSavedFrame = e'.base)
    (first : es.Pairwise fun e _ => ¬ e.FromUser)
    (stack : ∀ e ∈ es, e.FromUser → e.sysStackPtr = e.base + 340) :
    Nested L (Function.update entries p es) := by
  constructor
  · intro q e he
    rcases mem_update he with ⟨-, he⟩ | ⟨-, he⟩
    · exact kernel e he
    · exact h.kernel q e he
  · intro q
    by_cases hq : q = p
    · simpa [hq] using within
    · simpa [hq] using h.within q
  · intro q q' hne e he e' he'
    rcases mem_update he with ⟨rfl, h₁⟩ | ⟨hq, h₁⟩
    · rcases mem_update he' with ⟨rfl, -⟩ | ⟨hq', h₂⟩
      · exact absurd rfl hne
      · exact across q' hq' e h₁ e' h₂
    · rcases mem_update he' with ⟨rfl, h₂⟩ | ⟨-, h₂⟩
      · exact (across q hq e' h₂ e h₁).symm
      · exact h.across q q' hne e h₁ e' h₂
  · intro q
    by_cases hq : q = p
    · simpa [hq] using chain
    · simpa [hq] using h.chain q
  · intro q
    by_cases hq : q = p
    · simpa [hq] using first
    · simpa [hq] using h.first q
  · intro q e he
    rcases mem_update he with ⟨-, he⟩ | ⟨-, he⟩
    · exact stack e he
    · exact h.stack q e he

theorem push (h : Nested L entries) (kernel : Disjoint (frameArea e.base) L.variables)
    (frames : ∀ q, ∀ e' ∈ entries q, Disjoint (frameArea e.base) (frameArea e'.base))
    (link : ∀ e' ∈ (entries p).head?, e.currentSavedFrame = e'.base)
    (user : e.FromUser → entries p = [] ∧ e.sysStackPtr = e.base + 340) :
    Nested L (Function.update entries p (e :: entries p)) := by
  refine h.update ?_ ?_ ?_ ?_ ?_ ?_
  · exact List.forall_mem_cons.mpr ⟨kernel, h.kernel p⟩
  · exact List.pairwise_cons.mpr ⟨frames p, h.within p⟩
  · intro q hq
    exact List.forall_mem_cons.mpr ⟨frames q, h.across p q hq.symm⟩
  · exact List.isChain_cons.mpr ⟨link, h.chain p⟩
  · refine List.pairwise_cons.mpr ⟨fun e' he' hu => ?_, h.first p⟩
    rw [(user hu).1] at he'
    exact List.not_mem_nil he'
  · exact List.forall_mem_cons.mpr ⟨fun hu => (user hu).2, h.stack p⟩

theorem pop (h : Nested L entries) (hes : entries p = e :: es) :
    Nested L (Function.update entries p es) := by
  have sub : ∀ {e'}, e' ∈ es → e' ∈ entries p := fun h' => by
    rw [hes]
    exact List.mem_cons_of_mem _ h'
  have within := h.within p
  have chain := h.chain p
  have first := h.first p
  rw [hes] at within chain first
  exact h.update (fun e' he' => h.kernel p e' (sub he')) within.of_cons
    (fun q hq e' he' => h.across p q hq.symm e' (sub he')) chain.tail first.of_cons
    (fun e' he' => h.stack p e' (sub he'))

theorem result (h : Nested L entries) (hes : entries p = e :: es) (v : Option Word) :
    Nested L (Function.update entries p ({ e with result := v } :: es)) := by
  have kernel := h.kernel p
  have within := h.within p
  have across := fun q (hq : q ≠ p) => h.across p q hq.symm
  have chain := h.chain p
  have first := h.first p
  have stack := h.stack p
  rw [hes] at kernel within chain first stack
  simp only [hes] at across
  refine h.update ?_ ?_ ?_ ?_ ?_ ?_
  · exact List.forall_mem_cons.mpr (List.forall_mem_cons.mp kernel)
  · exact List.pairwise_cons.mpr (List.pairwise_cons.mp within)
  · intro q hq
    exact List.forall_mem_cons.mpr (List.forall_mem_cons.mp (across q hq))
  · exact List.isChain_cons.mpr (List.isChain_cons.mp chain)
  · exact List.pairwise_cons.mpr (List.pairwise_cons.mp first)
  · exact List.forall_mem_cons.mpr (List.forall_mem_cons.mp stack)

end Nested

/-! ### The invariant -/

/-- In user mode the current process has no frame, and its stack is free where the next one is
pushed. -/
def AtHome (L : Layout ι) (o : Os ι) : Prop :=
  ∃ p, load o.cpu.mem L.currentPCB = L.pcb p ∧ o.entries p = [] ∧
    o.Free L (frameArea (load o.cpu.mem (L.pcb p + 4) - 340))

structure Inv (L : Layout ι) (o : Os ι) : Prop where
  nested : Nested L o.entries
  held : ∀ p, ∀ e ∈ o.entries p, e.Held o.cpu.mem
  head : ∀ p, ∀ e ∈ (o.entries p).head?, load o.cpu.mem (L.pcb p) = e.base
  user : UserMode (o.cpu.special .status) → AtHome L o

theorem pointer_variables {x : Word} (hx : x ∈ area (L.pcb p) 8) : x ∈ L.variables := Or.inr ⟨p, hx⟩

theorem current_variables {x : Word} (hx : x ∈ area L.currentPCB 4) : x ∈ L.variables := Or.inl hx

theorem pcb_inj (h : L.pcb p = L.pcb q) : p = q := by
  by_contra hne
  have hd := L.pcb_pcb p q hne
  rw [h] at hd
  have hm : L.pcb q ∈ area (L.pcb q) 8 := by
    rw [mem_area]
    bv_omega
  exact Set.disjoint_left.mp hd hm hm

theorem apart_of_free {base : Word} (h : Disjoint (frameArea base) L.variables) (p : ι) :
    Apart L.currentPCB (L.pcb p) base where
  variable_pcb := L.currentPCB_pcb p
  frame_variable := h.mono_right fun _ => current_variables
  frame_pcb := h.mono_right fun _ => pointer_variables

/-- A memory that differs from the one before only outside the frames that stay, with the pointer
of each process to its first frame. -/
theorem Inv.of_frames (nested : Nested L o'.entries) (h : Inv L o)
    (old : ∀ q, ∀ e ∈ o'.entries q, e.Held o'.cpu.mem ∨
      e ∈ o.entries q ∧ ∀ x ∈ frameArea e.base, o'.cpu.mem x = o.cpu.mem x)
    (head : ∀ q, ∀ e ∈ (o'.entries q).head?, load o'.cpu.mem (L.pcb q) = e.base)
    (user : UserMode (o'.cpu.special .status) → AtHome L o') : Inv L o' where
  nested := nested
  held q e he := (old q e he).elim id fun h' => (h.held q e h'.1).congr h'.2
  head := head
  user := user

theorem Inv.code {s : State} (h : Inv L o) (hc : o.Code L s) : Inv L { o with cpu := s } := by
  refine h.of_frames h.nested (fun q e he => Or.inr ⟨he, hc.frames q e he⟩) ?_ ?_
  · intro q e he
    rw [← h.head q e he]
    exact load_congr fun x hx => hc.pointers q x (pointer_subset _ hx)
  · intro hu
    have hu' : UserMode (o.cpu.special .status) := hc.mode.mp hu
    obtain ⟨p, hp, hes, hf⟩ := h.user hu'
    have hcur : load s.mem L.currentPCB = load o.cpu.mem L.currentPCB :=
      hc.current.resolve_right fun hn => hn.1 hu'
    have hstack : load s.mem (L.pcb p + 4) = load o.cpu.mem (L.pcb p + 4) :=
      load_congr fun x hx => hc.pointers p x (second_pointer_subset _ hx)
    refine ⟨p, hcur.trans hp, hes, ?_⟩
    rw [hstack]
    exact ⟨hf.kernel, hf.frames⟩

/-- The frame is pushed where no other one is. -/
theorem Inv.free_frame {s : State} (h : Inv L o) (current : load o.cpu.mem L.currentPCB = L.pcb p)
    (interrupt : Interrupts o.cpu s)
    (stack : ¬ UserMode (o.cpu.special .status) → o.Free L (frameArea (o.cpu.r 29 - 340))) :
    o.Free L (frameArea (frameBase (L.pcb p) s)) := by
  rw [frameBase, interrupt.isr, interrupt.mem, interrupt.r]
  split_ifs with hu
  · obtain ⟨q, hq, -, hf⟩ := h.user hu
    rwa [pcb_inj (current.symm.trans hq)]
  · exact stack hu

@[simp] theorem restored_r (e : Entry) (i : Reg) :
    e.restored.r i = if i = 1 then e.result.getD (e.context.r 1) else e.context.r i := by
  cases hr : e.result with
  | none =>
      simp only [Entry.restored, hr, Option.elim_none, Option.getD_none]
      split_ifs with hi
      · rw [hi]
      · rfl
  | some v => simp [Entry.restored, hr]

@[simp] theorem restored_f (e : Entry) : e.restored.f = e.context.f := by
  cases hr : e.result <;> simp [Entry.restored, hr]

@[simp] theorem restored_special (e : Entry) : e.restored.special = e.context.special := by
  cases hr : e.result <;> simp [Entry.restored, hr]

/-- A result goes to the word of r1. -/
theorem Entry.Held.setResult {e : Entry} {μ : Memory} (h : e.Held μ) (v : Word) :
    Entry.Held { e with result := some v } (store μ (cell e.base (processStackIreg + 1)) v) := by
  have other : ∀ k < processStackFrameSize, k ≠ processStackIreg + 1 →
      load (store μ (cell e.base (processStackIreg + 1)) v) (cell e.base k) =
        load μ (cell e.base k) := fun k hk hne =>
    load_store_of_disjoint (cell_disjoint hk (by decide) (by decide) hne)
  refine ⟨⟨?_, ?_, ?_⟩, ?_⟩
  · intro i hi
    by_cases h₁ : i = 1
    · subst h₁
      rw [show processStackIreg + ((1 : Reg) : ℕ) = processStackIreg + 1 from rfl, load_store]
      simp
    · have hlt := i.isLt
      have hne : (i : ℕ) ≠ 1 := fun h => h₁ (Fin.ext h)
      rw [other _ (by simp only [processStackIreg, processStackFrameSize]; omega)
        (by omega), h.saved.reg i hi]
      simp [h₁]
  · intro i
    have hlt := i.isLt
    rw [other _ (by simp only [processStackFreg, processStackIreg, processStackFrameSize]; omega)
      (by simp only [processStackFreg, processStackIreg]; omega), h.saved.freg i]
    simp
  · intro x k hk
    have hlt : k < processStackFrameSize ∧ k ≠ processStackIreg + 1 := by
      revert k
      cases x <;> decide
    rw [other k hlt.1 hlt.2, h.saved.special x k hk]
    simp
  · exact (other _ (by decide) (by decide)).trans h.prevFrame

/-- What `_intrreturn` does at the latest entry of the current process. -/
theorem Inv.leave_run {e : Entry} {es : List Entry} (h : Inv L o)
    (current : load o.cpu.mem L.currentPCB = L.pcb p) (entered : o.entries p = e :: es)
    (stack : o.Free L (area (o.cpu.r 29 - 40) 40)) :
    ∃ s, run L.labels (intrreturn L.currentPCB) 0 o.cpu = some s ∧
      Saved o.cpu.mem e.base s ∧ s.special .status = s.special .isr ∧
      load s.mem (L.pcb p) = e.currentSavedFrame ∧ load s.mem (L.pcb p + 4) = e.base + 340 ∧
      ∀ x, x ∉ area (o.cpu.r 29 - 40) 40 → x ∉ frameArea e.base → x ∉ area (L.pcb p) 8 →
        s.mem x = o.cpu.mem x := by
  have he : e ∈ o.entries p := by simp [entered]
  have hstack : Disjoint (area (o.cpu.r 29 - 40) 40)
      (frameArea e.base ∪ area L.currentPCB 4 ∪ area (L.pcb p) 8) := by
    rw [Set.disjoint_union_right, Set.disjoint_union_right]
    exact ⟨⟨stack.frames p e he, stack.kernel.mono_right fun _ => current_variables⟩,
      stack.kernel.mono_right fun _ => pointer_variables⟩
  obtain ⟨s, hs, hsaved, hstatus, hprev, hsp, hmem⟩ := intrreturn_run L.labels current
    (h.head p e (by simp [entered])) (apart_of_free (h.nested.kernel p e he) p) hstack
  exact ⟨s, hs, hsaved, hstatus, hprev.trans (h.held p e he).prevFrame, hsp, hmem⟩

theorem Entry.Held.agree {e : Entry} {μ : Memory} {s : State} (h : e.Held μ)
    (hs : Saved μ e.base s) : (∀ i : Reg, i ≠ 0 → s.r i = e.restored.r i) ∧ s.f = e.context.f ∧
      ∀ x, (processStackSpecial x).isSome → s.special x = e.context.special x := by
  refine ⟨fun i hi => ?_, ?_, fun x hx => ?_⟩
  · exact (hs.reg i hi).symm.trans (h.saved.reg i hi)
  · ext1 i
    rw [← restored_f]
    exact (hs.freg i).symm.trans (h.saved.freg i)
  · obtain ⟨k, hk⟩ := Option.isSome_iff_exists.mp hx
    rw [← restored_special]
    exact (hs.special x k hk).symm.trans (h.saved.special x k hk)

section Steps

variable [DecidableEq ι]

theorem mem_head_update {entries : ι → List Entry} {es : List Entry} {e : Entry}
    (he : e ∈ (Function.update entries p es q).head?) :
    q = p ∧ e ∈ es.head? ∨ q ≠ p ∧ e ∈ (entries q).head? := by
  by_cases hq : q = p
  · subst hq
    exact Or.inl ⟨rfl, by simpa using he⟩
  · exact Or.inr ⟨hq, by simpa [hq] using he⟩

theorem Inv.setResult {e : Entry} {es : List Entry} {v : Word} (h : Inv L o)
    (mode : ¬ UserMode (o.cpu.special .status)) (hes : o.entries p = e :: es) :
    Inv L ⟨{ o.cpu with mem := processSetResult (L.pcb p) v o.cpu.mem },
      Function.update o.entries p ({ e with result := some v } :: es)⟩ := by
  have he : e ∈ o.entries p := by simp [hes]
  have hhead : load o.cpu.mem (L.pcb p) = e.base := h.head p e (by simp [hes])
  have hmem : processSetResult (L.pcb p) v o.cpu.mem =
      store o.cpu.mem (cell e.base (processStackIreg + 1)) v := by rw [processSetResult, hhead]
  have outside : ∀ x ∉ frameArea e.base, processSetResult (L.pcb p) v o.cpu.mem x = o.cpu.mem x := by
    intro x hx
    rw [hmem]
    exact store_outside fun hx' => hx (frame_cell (by decide) hx')
  refine h.of_frames (h.nested.result hes (some v)) ?_ ?_ fun hu => absurd hu mode
  · intro q e' he'
    rcases Nested.mem_update he' with ⟨rfl, h'⟩ | ⟨hq, h'⟩
    · rcases List.mem_cons.mp h' with rfl | h'
      · refine Or.inl ?_
        simp only [hmem]
        exact (h.held q e he).setResult v
      · refine Or.inr ⟨by simp [hes, h'], fun x hx => outside x fun hx' => ?_⟩
        have hw := h.nested.within q
        rw [hes] at hw
        exact Set.disjoint_left.mp (List.rel_of_pairwise_cons hw h') hx' hx
    · exact Or.inr ⟨h', fun x hx => outside x fun hx' =>
        Set.disjoint_left.mp (h.nested.across q p hq e' h' e he) hx hx'⟩
  · intro q e' he'
    have hq : load (processSetResult (L.pcb p) v o.cpu.mem) (L.pcb q) = load o.cpu.mem (L.pcb q) :=
      load_congr fun x hx => outside x fun hx' =>
        Set.disjoint_left.mp (h.nested.kernel p e he) hx' (pointer_variables (pointer_subset _ hx))
    rcases mem_head_update he' with ⟨rfl, h'⟩ | ⟨-, h'⟩
    · obtain rfl := Option.some.inj h'
      exact hq.trans hhead
    · exact hq.trans (h.head q e' h')

theorem Inv.fork {e : Entry} {s : State} (h : Inv L o) (hf : o.Forks L p e s) :
    Inv L ⟨s, Function.update o.entries p [e]⟩ := by
  have hr : e.restored = e.context := by simp [Entry.restored, hf.result]
  refine h.of_frames (h.nested.update ?_ ?_ ?_ ?_ ?_ ?_) ?_ ?_ fun hu => ?_
  · exact List.forall_mem_singleton.mpr hf.kernel
  · exact List.pairwise_singleton ..
  · intro q hq
    exact List.forall_mem_singleton.mpr (hf.frames q hq)
  · exact .singleton _
  · exact List.pairwise_singleton ..
  · exact List.forall_mem_singleton.mpr fun _ => hf.stack
  · intro q e' he'
    rcases Nested.mem_update he' with ⟨rfl, h'⟩ | ⟨hq, h'⟩
    · obtain rfl := List.mem_singleton.mp h'
      exact Or.inl ⟨hr ▸ hf.saved, hf.prevFrame⟩
    · refine Or.inr ⟨h', fun x hx => hf.mem x ?_ ?_⟩
      · exact fun hx' => Set.disjoint_left.mp (hf.frames q hq e' h') hx' hx
      · exact fun hx' => Set.disjoint_left.mp (h.nested.kernel q e' h') hx (pointer_variables hx')
  · intro q e' he'
    rcases mem_head_update he' with ⟨rfl, h'⟩ | ⟨hq, h'⟩
    · obtain rfl := Option.some.inj h'
      exact hf.currentSavedFrame
    · rw [← h.head q e' h']
      refine load_congr fun x hx => hf.mem x (fun hx' => ?_) fun hx' => ?_
      · exact Set.disjoint_left.mp hf.kernel hx' (pointer_variables (pointer_subset _ hx))
      · exact Set.disjoint_left.mp (L.pcb_pcb q p hq) (pointer_subset _ hx) hx'
  · simp only [hf.special] at hu
    exact absurd hu hf.mode

theorem Inv.enter {s s' : State} (h : Inv L o) (current : load o.cpu.mem L.currentPCB = L.pcb p)
    (interrupt : Interrupts o.cpu s)
    (stack : ¬ UserMode (o.cpu.special .status) → o.Free L (frameArea (o.cpu.r 29 - 340)))
    (hrun : run L.labels (intrhandler L.currentPCB) 0 s = some s') :
    Inv L ⟨s', Function.update o.entries p
      (⟨frameBase (L.pcb p) s, s, none, load o.cpu.mem (L.pcb p),
        load o.cpu.mem (L.pcb p + 4)⟩ :: o.entries p)⟩ := by
  have free := h.free_frame current interrupt stack
  have hcur : load s.mem L.currentPCB = L.pcb p := by rw [interrupt.mem, current]
  obtain ⟨s₁, e₁, hsaved, hprev, hhead, hspecial, hmem⟩ :=
    intrhandler_run L.labels hcur (apart_of_free free.kernel p)
  obtain rfl : s₁ = s' := Option.some.inj (e₁.symm.trans hrun)
  rw [interrupt.mem] at hprev hmem
  have hcontext : s.setReg 31 (s.special .ir31) = s := by
    rw [interrupt.ir31, ← interrupt.r, State.setReg, Function.update_eq_self]
  rw [hcontext] at hsaved
  refine h.of_frames (h.nested.push free.kernel free.frames ?_ ?_) ?_ ?_ fun hu => ?_
  · exact h.head p
  · intro hu
    have hu' : UserMode (o.cpu.special .status) := by
      rw [← interrupt.isr]
      exact hu
    obtain ⟨q, hq, hes, -⟩ := h.user hu'
    obtain rfl := pcb_inj (current.symm.trans hq)
    refine ⟨hes, ?_⟩
    simp only [frameBase, interrupt.isr, if_pos hu', interrupt.mem]
    bv_omega
  · intro q e he
    rcases Nested.mem_update he with ⟨rfl, h'⟩ | ⟨hq, h'⟩
    · rcases List.mem_cons.mp h' with rfl | h'
      · exact Or.inl ⟨hsaved, hprev⟩
      · refine Or.inr ⟨h', fun x hx => hmem x (fun hx' => ?_) fun hx' => ?_⟩
        · exact Set.disjoint_left.mp (free.frames q e h') hx' hx
        · exact Set.disjoint_left.mp (h.nested.kernel q e h') hx
            (pointer_variables (pointer_subset _ hx'))
    · refine Or.inr ⟨h', fun x hx => hmem x (fun hx' => ?_) fun hx' => ?_⟩
      · exact Set.disjoint_left.mp (free.frames q e h') hx' hx
      · exact Set.disjoint_left.mp (h.nested.kernel q e h') hx
          (pointer_variables (pointer_subset _ hx'))
  · intro q e he
    rcases mem_head_update he with ⟨rfl, h'⟩ | ⟨hq, h'⟩
    · obtain rfl := Option.some.inj h'
      exact hhead
    · rw [← h.head q e h']
      refine load_congr fun x hx => hmem x (fun hx' => ?_) fun hx' => ?_
      · exact Set.disjoint_left.mp free.kernel hx' (pointer_variables (pointer_subset _ hx))
      · exact Set.disjoint_left.mp (L.pcb_pcb q p hq) (pointer_subset _ hx) (pointer_subset _ hx')
  · simp only [hspecial] at hu
    exact absurd hu interrupt.status

omit [DecidableEq ι] in
/-- The process stays the current one. -/
theorem Inv.leave_current {e : Entry} {es : List Entry} {s : State} (h : Inv L o)
    (current : load o.cpu.mem L.currentPCB = L.pcb p) (entered : o.entries p = e :: es)
    (stack : o.Free L (area (o.cpu.r 29 - 40) 40))
    (hrun : run L.labels (intrreturn L.currentPCB) 0 o.cpu = some s) :
    load s.mem L.currentPCB = L.pcb p := by
  obtain ⟨s₁, e₁, -, -, -, -, hmem⟩ := h.leave_run current entered stack
  obtain rfl : s₁ = s := Option.some.inj (e₁.symm.trans hrun)
  have he : e ∈ o.entries p := by simp [entered]
  rw [← current]
  refine load_congr fun x hx => hmem x ?_ ?_ ?_
  · exact fun hx' => Set.disjoint_left.mp stack.kernel hx' (current_variables hx)
  · exact fun hx' => Set.disjoint_left.mp (h.nested.kernel p e he) hx' (current_variables hx)
  · exact fun hx' => Set.disjoint_left.mp (L.currentPCB_pcb p) hx hx'

theorem Inv.leave {e : Entry} {es : List Entry} {s : State} (h : Inv L o)
    (current : load o.cpu.mem L.currentPCB = L.pcb p) (entered : o.entries p = e :: es)
    (stack : o.Free L (area (o.cpu.r 29 - 40) 40))
    (hrun : run L.labels (intrreturn L.currentPCB) 0 o.cpu = some s) :
    Inv L ⟨s, Function.update o.entries p es⟩ := by
  obtain ⟨s₁, e₁, hsaved, hstatus, hprev, hsp, hmem⟩ := h.leave_run current entered stack
  obtain rfl : s₁ = s := Option.some.inj (e₁.symm.trans hrun)
  have he : e ∈ o.entries p := by simp [entered]
  have within := h.nested.within p
  have chain := h.nested.chain p
  have first := h.nested.first p
  rw [entered] at within chain first
  refine h.of_frames (h.nested.pop entered) ?_ ?_ fun hu => ?_
  · intro q e' he'
    have apart : e' ∈ o.entries q ∧ Disjoint (frameArea e.base) (frameArea e'.base) := by
      rcases Nested.mem_update he' with ⟨rfl, h'⟩ | ⟨hq, h'⟩
      · exact ⟨by simp [entered, h'], List.rel_of_pairwise_cons within h'⟩
      · exact ⟨h', (h.nested.across q p hq e' h' e he).symm⟩
    refine Or.inr ⟨apart.1, fun x hx => hmem x ?_ ?_ ?_⟩
    · exact fun hx' => Set.disjoint_left.mp (stack.frames q e' apart.1) hx' hx
    · exact fun hx' => Set.disjoint_left.mp apart.2 hx' hx
    · exact fun hx' => Set.disjoint_left.mp (h.nested.kernel q e' apart.1) hx (pointer_variables hx')
  · intro q e' he'
    rcases mem_head_update he' with ⟨rfl, h'⟩ | ⟨hq, h'⟩
    · exact hprev.trans ((List.isChain_cons.mp chain).1 e' h')
    · rw [← h.head q e' h']
      refine load_congr fun x hx => hmem x ?_ ?_ ?_
      · exact fun hx' => Set.disjoint_left.mp stack.kernel hx'
          (pointer_variables (pointer_subset _ hx))
      · exact fun hx' => Set.disjoint_left.mp (h.nested.kernel p e he) hx'
          (pointer_variables (pointer_subset _ hx))
      · exact fun hx' => Set.disjoint_left.mp (L.pcb_pcb q p hq) (pointer_subset _ hx) hx'
  · have huser : e.FromUser := by
      have hisr := ((h.held p e he).agree hsaved).2.2 .isr rfl
      rw [Entry.FromUser, ← hisr, ← hstatus]
      exact hu
    obtain rfl : es = [] := List.eq_nil_iff_forall_not_mem.mpr fun e' he' =>
      List.rel_of_pairwise_cons first he' huser
    refine ⟨p, h.leave_current current entered stack hrun, by simp, ?_⟩
    · simp only [hsp, show e.base + 340 - 340 = e.base by bv_omega]
      refine ⟨h.nested.kernel p e he, fun q e' he' => ?_⟩
      rcases Nested.mem_update he' with ⟨-, h'⟩ | ⟨hq, h'⟩
      · exact absurd h' List.not_mem_nil
      · exact (h.nested.across q p hq e' h' e he).symm

theorem reachable_inv (h : (system L).Reachable o) : Inv L o := by
  refine h.invariant ?_ ?_
  · rintro o ⟨hmode, hes⟩
    refine ⟨⟨?_, ?_, ?_, ?_, ?_, ?_⟩, ?_, ?_, fun hu => absurd hu hmode⟩ <;> simp [hes]
  · intro o e o' _ hinv hstep
    cases hstep with
    | code hc => exact hinv.code hc
    | setResult mode hes => exact hinv.setResult mode hes
    | fork hf => exact hinv.fork hf
    | enter current interrupt stack hrun => exact hinv.enter current interrupt stack hrun
    | leave mode current entered stack hrun => exact hinv.leave current entered stack hrun

/-- In every reachable state, `_intrreturn` brings back what the latest entry of the current process
interrupted. -/
theorem intrreturn_restores {e : Entry} {es : List Entry} (h : (system L).Reachable o)
    (current : load o.cpu.mem L.currentPCB = L.pcb p) (entered : o.entries p = e :: es)
    (stack : o.Free L (area (o.cpu.r 29 - 40) 40)) :
    ∃ s, run L.labels (intrreturn L.currentPCB) 0 o.cpu = some s ∧
      (∀ i : Reg, i ≠ 0 → s.r i = if i = 1 then e.result.getD (e.context.r 1) else e.context.r i) ∧
      (∀ i : Reg, s.f i = e.context.f i) ∧
      (∀ x ∈ [Special.iar, .isr, .cause, .fault, .ptbase, .ptsize, .ptbits],
        s.special x = e.context.special x) ∧
      load s.mem (L.pcb p) = e.currentSavedFrame ∧
      (UserMode (s.special .status) → load s.mem (L.pcb p + 4) = e.sysStackPtr) := by
  have hinv := reachable_inv h
  have he : e ∈ o.entries p := by simp [entered]
  obtain ⟨s, hs, hsaved, hstatus, hprev, hsp, -⟩ := hinv.leave_run current entered stack
  obtain ⟨hr, hf, hx⟩ := (hinv.held p e he).agree hsaved
  refine ⟨s, hs, ?_, congrFun hf, ?_, hprev, fun hu => ?_⟩
  · intro i hi
    rw [hr i hi, restored_r]
  · intro x hx'
    refine hx x ?_
    revert x
    decide
  · rw [hsp, hinv.nested.stack p e he]
    rw [Entry.FromUser, ← hx .isr rfl, ← hstatus]
    exact hu

/-- A kernel with one process, whose boot code is interrupted. -/
def oneProcess : Layout Unit where
  currentPCB := 0x1000
  pcb _ := 0x2000
  labels n := 0x100 + BitVec.ofNat 32 (4 * n)
  currentPCB_pcb _ := by
    refine Set.disjoint_left.mpr fun x hx hx' => ?_
    rw [mem_area] at *
    bv_omega
  pcb_pcb p q h := absurd rfl h

theorem oneProcess_off {a : Word} {n : ℕ} (ha : 0x3000 ≤ a.toNat) (hn : a.toNat + n < 2 ^ 32) :
    Disjoint (area a n) oneProcess.variables := by
  refine Set.disjoint_left.mpr fun x hx hx' => ?_
  rw [mem_area] at hx
  rcases hx' with hx' | ⟨p, hx'⟩
  · rw [mem_area, show oneProcess.currentPCB = 0x1000#32 from rfl] at hx'
    bv_omega
  · rw [mem_area, show oneProcess.pcb p = 0x2000#32 from rfl] at hx'
    bv_omega

/-- The boot code, with the address of a frame in the control block of the process. -/
def bootState (frame : Word) : State where
  r i := if i = 29 then 0x9000 else BitVec.ofNat 32 i
  f _ := 0
  special x := if x = .status ∨ x = .isr then 0x40 else if x = .ir31 then 31 else 0
  mem := store (store (fun _ => 0) 0x1000 0x2000) 0x2000 frame

/-- What the interrupt of the boot code leaves. -/
def bootEntry (frame : Word) : Entry where
  base := 0x8eac
  context := bootState frame
  result := none
  currentSavedFrame := frame
  sysStackPtr := load (bootState frame).mem 0x2004

theorem boot_entered (frame : Word) : ∃ s : State,
    (system oneProcess).Reachable ⟨s, Function.update (fun _ => []) () [bootEntry frame]⟩ ∧
      load s.mem oneProcess.currentPCB = oneProcess.pcb () := by
  have hcur : load (bootState frame).mem oneProcess.currentPCB = oneProcess.pcb () := by
    refine (load_store_of_disjoint ?_).trans load_store
    exact (oneProcess.currentPCB_pcb ()).mono_right (pointer_subset _)
  have hframe : load (bootState frame).mem (oneProcess.pcb ()) = frame := load_store
  have hbase : frameBase (oneProcess.pcb ()) (bootState frame) = 0x8eac := by
    have hisr : ¬ UserMode ((bootState frame).special .isr) := show ¬ UserMode 0x40 by decide
    rw [frameBase, if_neg hisr]
    show (0x9000 : Word) - 340 = 0x8eac
    decide
  have hr29 : 0x8eac = (bootState frame).r 29 - 340 := by
    show (0x8eac : Word) = 0x9000 - 340
    decide
  have hfree : Disjoint (frameArea 0x8eac) oneProcess.variables :=
    oneProcess_off (by decide) (by decide)
  obtain ⟨s, hs, -, -, -, -, hmem⟩ := intrhandler_run oneProcess.labels hcur
    (by rw [hbase]; exact apart_of_free hfree ())
  have hr₀ : (system oneProcess).Reachable ⟨bootState frame, fun _ => []⟩ :=
    .init ⟨show ¬ UserMode 0x40 by decide, fun _ => rfl⟩
  have hr₁ := hr₀.step (.enter hcur ⟨rfl, rfl, rfl, rfl, rfl, show ¬ UserMode 0x40 by decide⟩
    (fun _ => ⟨hr29 ▸ hfree, fun p e he => absurd he List.not_mem_nil⟩) hs)
  rw [hbase] at hr₁ hmem
  simp only [hframe] at hr₁
  refine ⟨s, hr₁, ?_⟩
  rw [← hcur]
  refine load_congr fun x hx => hmem x (fun hx' => ?_) fun hx' => ?_
  · exact Set.disjoint_left.mp hfree hx' (current_variables hx)
  · exact Set.disjoint_left.mp (oneProcess.currentPCB_pcb ()) hx (pointer_subset _ hx')

/-- The boot code or a handler of the kernel with one process, above these entries. -/
structure Handling (o : Os Unit) (es : List Entry) : Prop where
  reach : (system oneProcess).Reachable o
  entries : o.entries () = es
  mode : ¬ UserMode (o.cpu.special .status)
  current : load o.cpu.mem oneProcess.currentPCB = oneProcess.pcb ()

/-- An area above the variables and below all frames is free. -/
theorem below_free {o : Os Unit} {a : Word} {n : ℕ} (ha : 0x3000 ≤ a.toNat)
    (hn : a.toNat + n < 2 ^ 32)
    (h : ∀ e ∈ o.entries (), a.toNat + n ≤ e.base.toNat ∧ e.base.toNat + 340 < 2 ^ 32) :
    o.Free oneProcess (area a n) := by
  refine ⟨oneProcess_off ha hn, fun p e he => Set.disjoint_left.mpr fun x hx hx' => ?_⟩
  obtain ⟨hbelow, hbound⟩ := h e he
  rw [frameArea, mem_area] at hx'
  rw [mem_area] at hx
  simp only [processStackFrameSize] at hx'
  bv_omega

/-- It can be interrupted, and the handler has any registers then. -/
theorem Handling.enter {es : List Entry} {o : Os Unit} (h : Handling o es) (base : Word)
    (hbase : o.cpu.r 29 = base + 340) (free : o.Free oneProcess (frameArea base))
    (r : Reg → Word) : ∃ e o', Handling o' (e :: es) ∧ o'.cpu.r = r ∧ e.base = base ∧
      e.context.r = o.cpu.r ∧ e.result = none := by
  let s₀ : State :=
    (o.cpu.setSpecial .ir31 (o.cpu.r 31)).setSpecial .isr (o.cpu.special .status)
  have interrupts : Interrupts o.cpu s₀ := ⟨rfl, rfl, rfl, rfl, rfl, h.mode⟩
  have hsp : o.cpu.r 29 - 340 = base := by rw [hbase]; bv_omega
  have hframe : frameBase (oneProcess.pcb ()) s₀ = base := by
    rw [frameBase, if_neg (show ¬ UserMode (s₀.special .isr) from h.mode)]
    exact hsp
  obtain ⟨s, hs, -, -, -, hspecial, hmem⟩ := intrhandler_run oneProcess.labels (s := s₀) h.current
    (by rw [hframe]; exact apart_of_free free.kernel ())
  rw [hframe] at hmem
  have entered := h.reach.step (.enter h.current interrupts (fun _ => hsp ▸ free) hs)
  have goesOn := entered.step (.code (s := { s with r := r })
    ⟨fun _ _ _ _ _ => rfl, fun _ _ _ => rfl, .inl rfl, .rfl⟩)
  refine ⟨⟨frameBase (oneProcess.pcb ()) s₀, s₀, none, load o.cpu.mem (oneProcess.pcb ()),
    load o.cpu.mem (oneProcess.pcb () + 4)⟩, _, ⟨goesOn, ?_, ?_, ?_⟩, rfl, hframe, rfl, rfl⟩
  · simp [h.entries]
  · change ¬ UserMode (s.special .status)
    rw [hspecial]
    exact h.mode
  · change load s.mem oneProcess.currentPCB = _
    rw [← h.current]
    refine load_congr fun x hx => hmem x (fun hx' => ?_) fun hx' => ?_
    · exact Set.disjoint_left.mp free.kernel hx' (current_variables hx)
    · exact Set.disjoint_left.mp (oneProcess.currentPCB_pcb ()) hx (pointer_subset _ hx')

/-- The boot code is interrupted, and so is the handler that runs then with registers of its own;
both returns bring their own entry back. -/
theorem intrreturn_restores_nested : ∃ (o o' : Os Unit) (s s' : State) (e e' : Entry),
    (system oneProcess).Reachable o ∧ o.entries () = [e', e] ∧
    run oneProcess.labels (intrreturn oneProcess.currentPCB) 0 o.cpu = some s ∧
    s.r 7 = 99 ∧ s.r 29 = 0x8000 ∧
    (system oneProcess).Step o (.leave ()) o' ∧ o'.entries () = [e] ∧
    run oneProcess.labels (intrreturn oneProcess.currentPCB) 0 o'.cpu = some s' ∧
    s'.r 7 = 7 ∧ s'.r 29 = 0x9000 := by
  have boot : Handling ⟨bootState 0, fun _ => []⟩ [] :=
    ⟨.init ⟨show ¬ UserMode 0x40 by decide, fun _ => rfl⟩, rfl, show ¬ UserMode 0x40 by decide,
      (load_store_of_disjoint ((oneProcess.currentPCB_pcb ()).mono_right (pointer_subset _))).trans
        load_store⟩
  obtain ⟨e, o₁, h₁, r₁, base, context, result⟩ := boot.enter 0x8eac rfl
    (below_free (by decide) (by decide) (by simp))
    fun i => if i = 29 then 0x8000 else if i = 7 then 99 else 0
  obtain ⟨e', o, h, r, base', context', result'⟩ := h₁.enter 0x7eac (by rw [r₁]; rfl)
    (below_free (by decide) (by decide) (by simp [h₁.entries, base, processStackFrameSize]))
    fun _ => 0x7000
  have sp : o.cpu.r 29 - 40 = 0x6fd8 := by rw [r]; rfl
  have free : o.Free oneProcess (area (o.cpu.r 29 - 40) 40) := by
    rw [sp]
    exact below_free (by decide) (by decide) (by simp [h.entries, base, base'])
  obtain ⟨s, hs, hr, -⟩ := intrreturn_restores h.reach h.current h.entries free
  have left := Step.leave h.mode h.current h.entries free hs
  have hr' : ∀ i : Reg, i ≠ 0 → s.r i = o₁.cpu.r i := fun i hi => by
    rw [hr i hi, result', context']
    split_ifs with h₁
    · rw [h₁]
      rfl
    · rfl
  have sp' : s.r 29 = 0x8000 := by
    rw [hr' 29 (by decide), r₁]
    rfl
  have free' : Os.Free oneProcess ⟨s, Function.update o.entries () [e]⟩
      (area (s.r 29 - 40) 40) := by
    rw [show s.r 29 - 40 = 0x7fd8 by rw [sp']; rfl]
    exact below_free (by decide) (by decide) (by simp [base])
  obtain ⟨s', hs', hr'', -⟩ := intrreturn_restores (h.reach.step left)
    ((reachable_inv h.reach).leave_current h.current h.entries free hs)
    (show Function.update o.entries () [e] () = [e] by simp) free'
  refine ⟨o, _, s, s', e, e', h.reach, h.entries, hs, ?_, sp', left, by simp, hs', ?_, ?_⟩
  · rw [hr' 7 (by decide), r₁]
    rfl
  · rw [hr'' 7 (by decide), result, context]
    rfl
  · rw [hr'' 29 (by decide), result, context]
    rfl

end Steps

end DlxOs.Context
