import DlxOs.Kernel.Accesses
import DlxOs.Traps.Refusals

/-!
# Locks outside their table

`CondCreate` takes any handle of a lock, and a condition variable keeps it. For a
handle outside the table of locks, these calls read the memory that lies there,
which may be the stack. They do not depend on it when the bytes that decide lie
elsewhere.
-/

namespace DlxOs.Traps

open Kernel (Halt PcbPtr CondPtr KState KernelM Ret index maxConds maxLocks ok_bind syncFail
  invalidCond run_bind_ok)
open Memory (Bytes)

variable {σ : Type} {n : ℕ} {E : Env σ} {p : PcbPtr} {space : UserSpace} {trapArgs a w : Word}
  {s : Sys σ} {K : KState} {c : CondPtr} {lock : ℤ} {b : Byte} {μ stack : Bytes} {t : Trap}

/-! ### Words of memory -/

/-- The bytes of a word at an address. -/
def cells (a w : Word) : List (Word × Byte) := [a, a + 1, a + 2, a + 3].zip (bytesOf w)

/-- A byte of the word at `a` lies off the stack area and differs from that of `w`. -/
def Env.Differs (E : Env σ) (s : Sys σ) (a w : Word) : Prop :=
  ∃ x ∈ cells a w, E.stackArea x.1 = false ∧ s.mem x.1 ≠ x.2

/-- The word at `a` lies off the stack area and is `w`. -/
def Env.Holds (E : Env σ) (s : Sys σ) (a w : Word) : Prop :=
  ∀ x ∈ cells a w, E.stackArea x.1 = false ∧ s.mem x.1 = x.2

theorem wordAt_eq_iff : wordAt μ a = w ↔ ∀ x ∈ cells a w, μ x.1 = x.2 := by
  have hbytes : wordAt μ a = w ↔ [μ a, μ (a + 1), μ (a + 2), μ (a + 3)] = bytesOf w := by
    rw [← bytesOf_wordOf]
    exact ⟨fun h => congrArg bytesOf h, fun h => bytesOf_inj h⟩
  rw [hbytes]
  simp [cells, bytesOf]

theorem Env.memory_off (h : E.stackArea a = false) : E.memory stack s a = s.mem a := by
  rw [Env.memory, h]
  rfl

theorem Env.memory_on (h : E.stackArea a = true) : E.memory stack s a = stack a := if_pos h

/-- A stack area that holds these bytes. -/
def stackWith (a w : Word) : Bytes := fun x => (bytesOf w)[(x - a).toNat]?.getD 0

theorem stackWith_cells : ∀ x ∈ cells a w, stackWith a w x.1 = x.2 := by
  have hat : ∀ d : Word, stackWith a w (a + d) = (bytesOf w)[d.toNat]?.getD 0 := fun d => by
    rw [stackWith, BitVec.add_comm, BitVec.add_sub_cancel]
  have hfirst : stackWith a w a = (bytesOf w)[0]?.getD 0 := by simpa using hat 0
  intro x hx
  simp only [cells, bytesOf, List.zip_cons_cons, List.zip_nil_right, List.mem_cons,
    List.not_mem_nil, or_false] at hx
  rcases hx with rfl | rfl | rfl | rfl
  · exact hfirst
  · exact hat 1
  · exact hat 2
  · exact hat 3

theorem differs_iff : E.Differs s a w ↔ ∀ stack, wordAt (E.memory stack s) a ≠ w := by
  constructor
  · rintro ⟨x, hx, hoff, hne⟩ stack h
    rw [wordAt_eq_iff] at h
    exact hne ((Env.memory_off hoff).symm.trans (h x hx))
  · intro h
    by_contra hall
    unfold Env.Differs at hall
    push Not at hall
    apply h (stackWith a w)
    rw [wordAt_eq_iff]
    intro x hx
    cases hon : E.stackArea x.1 with
    | true => rw [Env.memory_on hon, stackWith_cells x hx]
    | false => rw [Env.memory_off hon, hall x hx hon]

theorem holds_iff : E.Holds s a w ↔ ∀ stack, wordAt (E.memory stack s) a = w := by
  constructor
  · intro h stack
    rw [wordAt_eq_iff]
    exact fun x hx => (Env.memory_off (h x hx).1).trans (h x hx).2
  · intro h x hx
    have hx' := fun stack => wordAt_eq_iff.mp (h stack) x hx
    cases hon : E.stackArea x.1 with
    | true =>
        have hsame := (Env.memory_on hon).symm.trans (hx' fun _ => x.2 + 1)
        simp at hsame
    | false => exact ⟨rfl, (Env.memory_off hon).symm.trans (hx' fun _ => 0)⟩

/-! ### Creation -/

/-- The lock is in use, whatever the stack held. -/
def Env.LockUsed (E : Env σ) (s : Sys σ) (lock : ℤ) : Prop :=
  match index maxLocks lock with
  | some k => (s.kernel.locks k).inuse = true
  | none => E.Differs s (E.lockAddr lock + 16) 0

/-- The lock is not in use, whatever the stack held. -/
def Env.LockFree (E : Env σ) (s : Sys σ) (lock : ℤ) : Prop :=
  match index maxLocks lock with
  | some k => (s.kernel.locks k).inuse = false
  | none => E.Holds s (E.lockAddr lock + 16) 0

theorem lockUsed_iff : E.LockUsed s lock ↔
    ∀ stack, E.lockInuse (E.memory stack s) s.kernel lock = true := by
  unfold Env.LockUsed Env.lockInuse
  cases index maxLocks lock with
  | some k => exact ⟨fun h _ => h, fun h => h fun _ => 0⟩
  | none => simp only [differs_iff, decide_eq_true_eq]

theorem lockFree_iff : E.LockFree s lock ↔
    ∀ stack, E.lockInuse (E.memory stack s) s.kernel lock = false := by
  unfold Env.LockFree Env.lockInuse
  cases index maxLocks lock with
  | some k => exact ⟨fun h _ => h, fun h => h fun _ => 0⟩
  | none => simp only [holds_iff, decide_eq_false_iff_not, ne_eq, not_not]

theorem condCreate_unused : (Kernel.condCreateFor lock false).run K = .ok (invalidCond, K) := rfl

theorem condCreate_full (h : ∀ c, (K.conds c).inuse = true) (inuse : Bool) :
    (Kernel.condCreateFor lock inuse).run K = .ok (invalidCond, K) := by
  cases inuse with
  | false => rfl
  | true =>
      have hfind : ((List.finRange maxConds).find? fun c => !((K.setIntrs 15).conds c).inuse) =
          none := by
        rw [List.find?_eq_none]
        intro c _
        have hc : ((K.setIntrs 15).conds c).inuse = true := h c
        rw [hc]
        decide
      rw [Kernel.condCreateFor, if_neg (by decide), run_bind_ok Kernel.disableIntrs_run,
        Kernel.get_bind_run]
      simp only [hfind]
      rfl

/-- A new condition variable keeps the handle. -/
theorem condCreate_keeps
    (h : ((List.finRange maxConds).find? fun c => !(K.conds c).inuse) = some c) (lock : ℤ) :
    ∃ K', (Kernel.condCreateFor lock true).run K = .ok ((c.val : ℤ), K') ∧
      (K'.conds c).lock = lock := by
  have hfind : ((List.finRange maxConds).find? fun c => !((K.setIntrs 15).conds c).inuse) =
      some c := h
  let X : KState := { K with conds := Function.update K.conds c { lock := lock, inuse := true } }
  refine ⟨X.setHeap (Queue.aQueueInit K.heap (some (.named (.waiting (.cond c))))).2, ?_, ?_⟩
  · rw [Kernel.condCreateFor, if_neg (by decide), run_bind_ok Kernel.disableIntrs_run,
      Kernel.get_bind_run]
    simp only [hfind]
    rfl
  · simp [KState.setHeap, X]

/-- All words are refused, or the one that is passed names a lock in use. -/
def CondCreateAlike (E : Env σ) (space : UserSpace) (trapArgs : Word) (s : Sys σ) : Prop :=
  (∀ c, (s.kernel.conds c).inuse = true) ∨
    (∀ w, Candidate space trapArgs w → E.LockFree s w.toInt) ∨
    ReadsWord space trapArgs ∧ ∀ w, Candidate space trapArgs w → E.LockUsed s w.toInt

theorem alike_condCreate : Alike space trapArgs (fun stack w => s.creates
      (Kernel.condCreateFor w.toInt (E.lockInuse (E.memory stack s) s.kernel w.toInt))) ↔
    CondCreateAlike E space trapArgs s := by
  constructor
  · intro h
    by_contra hn
    unfold CondCreateAlike at hn
    push Not at hn
    obtain ⟨⟨c, hc⟩, ⟨w, hw, hused⟩, hread⟩ := hn
    rw [lockFree_iff] at hused
    push Not at hused
    obtain ⟨stack, hused⟩ := hused
    obtain ⟨j, hj⟩ : ∃ j, ((List.finRange maxConds).find?
        fun i => !(s.kernel.conds i).inuse) = some j := by
      apply Option.isSome_iff_exists.mp
      rw [List.find?_isSome]
      exact ⟨c, List.mem_finRange c, by simpa using hc⟩
    obtain ⟨K₁, h₁, hlock₁⟩ := condCreate_keeps hj w.toInt
    -- every other word makes the same condition variable
    have hsame : ∀ {w'}, Candidate space trapArgs w' → ∀ stack',
        E.lockInuse (E.memory stack' s) s.kernel w'.toInt = true ∧ w' = w := by
      intro w' hw' stack'
      have heq := h stack stack' w w' hw hw'
      simp only [(Bool.not_eq_false _).mp hused, creates_eq h₁] at heq
      cases hv : E.lockInuse (E.memory stack' s) s.kernel w'.toInt with
      | false =>
          simp only [hv, creates_eq condCreate_unused] at heq
          have hresult := congrArg Outcome.result (Except.ok.inj heq)
          injection hresult with hresult
          injection hresult with hresult
          unfold invalidCond at hresult
          omega
      | true =>
          obtain ⟨K₂, h₂, hlock₂⟩ := condCreate_keeps hj w'.toInt
          simp only [hv, creates_eq h₂] at heq
          have hK : K₁ = K₂ := congrArg (fun o => o.sys.kernel) (Except.ok.inj heq)
          rw [hK, hlock₂] at hlock₁
          exact ⟨rfl, BitVec.eq_of_toInt_eq hlock₁⟩
    by_cases hr : ReadsWord space trapArgs
    · obtain ⟨w', hw', hnot⟩ := hread hr
      exact hnot (lockUsed_iff.mpr fun stack' => (hsame hw' stack').1)
    · obtain ⟨a, b, c, hall⟩ := exists_candidate hr
      have hlast := (hsame (hall 0) stack).2.trans (hsame (hall 1) stack).2.symm
      exact absurd (wordOf_last (congrArg BitVec.toInt hlast)) (by decide)
  · rintro (hfull | hfree | ⟨hr, hused⟩) stack stack' w w' hw hw'
    · simp only [creates_eq (condCreate_full hfull _)]
    · simp only [lockFree_iff.mp (hfree w hw), lockFree_iff.mp (hfree w' hw'),
        creates_eq condCreate_unused]
    · obtain rfl := candidate_unique hr hw hw'
      simp only [lockUsed_iff.mp (hused w hw)]

/-! ### Waiting and signalling -/

/-- A lock in the table is used as it is. -/
theorem condCall_inside {k : Kernel.LockPtr} {f : CondPtr → KernelM Ret}
    {rest : CondPtr → BitVec 4 → KernelM Ret} (h : index maxLocks (K.conds c).lock = some k) :
    (E.condCall μ f rest c).run K = (f c).run K := by
  rw [Env.condCall, Kernel.get_bind_run]
  simp only [h]

/-- Of a lock outside, only the owner is read. -/
theorem condCall_outside {f : CondPtr → KernelM Ret} {rest : CondPtr → BitVec 4 → KernelM Ret}
    (hq : K.currentPCB = some p) (h : index maxLocks (K.conds c).lock = none) :
    (E.condCall μ f rest c).run K =
      if wordAt μ (E.lockAddr (K.conds c).lock) = BitVec.ofInt 32 p.val then
        (rest c K.intrs).run (K.setIntrs 0xf)
      else .ok (.returned syncFail,
        { K with console := K.console ++ ["CondWait: Proc can't wait, doesn't own lock!\n"] }) := by
  have hcurrent : (K.setIntrs 0xf).currentPCB = some p := hq
  rw [Env.condCall, Kernel.get_bind_run]
  simp only [h]
  rw [run_bind_ok Kernel.disableIntrs_run, run_bind_ok (Kernel.getCurrentPid_run hcurrent)]
  by_cases hpid : wordAt μ (E.lockAddr (K.conds c).lock) = BitVec.ofInt 32 p.val
  · rw [if_neg (not_not.mpr hpid), if_pos hpid]
  · rw [if_pos hpid, if_neg hpid]
    rfl

/-- What `CondWait` does with the lock is known. -/
def Env.WaitKnown (E : Env σ) (p : PcbPtr) (s : Sys σ) (c : CondPtr) : Prop :=
  index maxLocks (s.kernel.conds c).lock = none →
    E.Differs s (E.lockAddr (s.kernel.conds c).lock) (BitVec.ofInt 32 p.val)

/-- What `CondSignal` does with the lock is known: the process does not own it, or it does and
nobody waits. -/
def Env.SignalKnown (E : Env σ) (p : PcbPtr) (s : Sys σ) (c : CondPtr) : Prop :=
  index maxLocks (s.kernel.conds c).lock = none →
    E.Differs s (E.lockAddr (s.kernel.conds c).lock) (BitVec.ofInt 32 p.val) ∨
      Queue.aQueueEmpty s.kernel.heap (.named (.waiting (.cond c))) = true ∧
        E.Holds s (E.lockAddr (s.kernel.conds c).lock) (BitVec.ofInt 32 p.val)

/-- A call that stays inside the table, the same whatever the stack held. -/
def Steady (f : Bytes → KernelM Ret) (K : KState) : Prop :=
  (∀ stack, (f stack).run K ≠ .error .wildAccess) ∧
    ∀ stack stack', (f stack).run K = (f stack').run K

theorem condWait_steady (hq : s.kernel.currentPCB = some p) :
    Steady (fun stack => E.condWait (E.memory stack s) c) s.kernel ↔ E.WaitKnown p s c := by
  unfold Steady Env.WaitKnown Env.condWait
  cases h : index maxLocks (s.kernel.conds c).lock with
  | some k =>
      simp only [condCall_inside h]
      exact iff_of_true ⟨fun _ => Kernel.condWait_inside h, fun _ _ => trivial⟩
        (fun e => by cases e)
  | none =>
      simp only [condCall_outside hq h, differs_iff, forall_const]
      constructor
      · rintro ⟨hin, -⟩ stack hpid
        exact hin stack (if_pos hpid)
      · intro hpid
        refine ⟨fun stack => ?_, fun stack stack' => ?_⟩
        · rw [if_neg (hpid stack)]
          exact fun e => by cases e
        · rw [if_neg (hpid stack), if_neg (hpid stack')]

/-- The owner of a lock outside has nobody to hand it to, or hands it on outside the table. -/
theorem signal_rest {i : BitVec 4} : (do
      if !(← Kernel.isEmpty (.waiting (.cond c))) then throw .wildAccess
      Kernel.restoreIntrs i
      return .returned Kernel.syncSuccess : KernelM Ret).run (K.setIntrs 0xf) =
    if Queue.aQueueEmpty K.heap (.named (.waiting (.cond c))) = true then
      .ok (.returned Kernel.syncSuccess, (K.setIntrs 0xf).setIntrs i)
    else .error .wildAccess := by
  have hempty : (Kernel.isEmpty (.waiting (.cond c))).run (K.setIntrs 0xf) =
    .ok (Queue.aQueueEmpty K.heap (.named (.waiting (.cond c))), K.setIntrs 0xf) := rfl
  rw [run_bind_ok hempty]
  cases Queue.aQueueEmpty K.heap (.named (.waiting (.cond c))) with
  | true => rfl
  | false => rfl

theorem condSignal_steady (hq : s.kernel.currentPCB = some p) :
    Steady (fun stack => E.condSignal (E.memory stack s) c) s.kernel ↔ E.SignalKnown p s c := by
  unfold Steady Env.SignalKnown Env.condSignal
  cases h : index maxLocks (s.kernel.conds c).lock with
  | some k =>
      simp only [condCall_inside h]
      exact iff_of_true ⟨fun _ => Kernel.condSignal_inside h, fun _ _ => trivial⟩
        (fun e => by cases e)
  | none =>
      simp only [condCall_outside hq h, signal_rest, differs_iff, holds_iff, forall_const]
      constructor
      · rintro ⟨hin, hsame⟩
        by_contra hn
        push Not at hn
        obtain ⟨⟨stack, hpid⟩, hother⟩ := hn
        have hempty : Queue.aQueueEmpty s.kernel.heap (.named (.waiting (.cond c))) = true := by
          by_contra hwaits
          apply hin stack
          rw [if_pos hpid, if_neg hwaits]
        obtain ⟨stack', hne⟩ := hother hempty
        have hresult := hsame stack stack'
        rw [if_pos hpid, if_pos hempty, if_neg hne] at hresult
        injection congrArg Prod.fst (Except.ok.inj hresult) with hvalue
        exact absurd hvalue (by decide)
      · rintro (hne | ⟨hempty, hpid⟩)
        · refine ⟨fun stack => ?_, fun stack stack' => ?_⟩
          · rw [if_neg (hne stack)]
            exact fun e => by cases e
          · rw [if_neg (hne stack), if_neg (hne stack')]
        · refine ⟨fun stack => ?_, fun stack stack' => ?_⟩
          · rw [if_pos (hpid stack), if_pos hempty]
            exact fun e => by cases e
          · rw [if_pos (hpid stack), if_pos (hpid stack')]

/-- Who is refused as not the owner leaves a message. -/
theorem condCall_not_refuses {f : CondPtr → KernelM Ret} {rest : CondPtr → BitVec 4 → KernelM Ret}
    (hq : K.currentPCB = some p) (hf : ¬ Refuses (f c) K)
    (hrest : (rest c K.intrs).run (K.setIntrs 0xf) ≠ .ok (.returned syncFail, K)) :
    ¬ Refuses (E.condCall μ f rest c) K := by
  unfold Refuses
  cases h : index maxLocks (K.conds c).lock with
  | some k =>
      rw [condCall_inside h]
      exact hf
  | none =>
      rw [condCall_outside hq h]
      split_ifs with hpid
      · exact hrest
      · intro e
        have hconsole := congrArg (fun r => r.2.console.length) (Except.ok.inj e)
        simp at hconsole

theorem condWait_refuses_never (hq : K.currentPCB = some p) :
    ¬ Refuses (E.condWait μ c) K :=
  condCall_not_refuses hq (condWait_not_refuses c) (fun e => by cases e)

theorem condSignal_refuses_never (hq : K.currentPCB = some p) :
    ¬ Refuses (E.condSignal μ c) K := by
  refine condCall_not_refuses hq (condSignal_not_refuses c) ?_
  rw [signal_rest]
  split_ifs
  · exact fun e => by cases e
  · exact fun e => by cases e

/-- The entry of a condition variable that a word names, if it is in use. -/
def NamesCond (s : Sys σ) (w : Word) (c : CondPtr) : Prop :=
  index maxConds w.toInt = some c ∧ (s.kernel.conds c).inuse = true

/-- A call of a condition variable through the handle that is passed. -/
def Sys.condTrap (s : Sys σ) (f : Bytes → CondPtr → KernelM Ret) (stack : Bytes) (w : Word) :
    Except Halt (Outcome σ) :=
  s.calls (Kernel.handled w.toInt (fun K c => (K.conds c).inuse) (f stack))

section CondTrap

variable {f : Bytes → CondPtr → KernelM Ret} {known : CondPtr → Prop}

theorem condTrap_named (h : NamesCond s w c) : s.condTrap f stack w = s.calls (f stack c) := by
  rw [Sys.condTrap, calls_handled, h.1]
  exact if_pos h.2

theorem condTrap_other (h : ∀ c, ¬ NamesCond s w c) : s.condTrap f stack w = refused s := by
  rw [Sys.condTrap, calls_handled]
  cases hc : index maxConds w.toInt with
  | none => rfl
  | some c => exact if_neg fun hinuse => h c ⟨hc, hinuse⟩

/-- With the same stack, the words matter as for any other call through a handle. -/
theorem alike_condTrap (hf : ∀ c, ¬ Refuses (f stack c) s.kernel) :
    Alike space trapArgs (fun _ => s.condTrap f stack) ↔ HandleDetermined space trapArgs
      (fun c => (s.kernel.conds c).inuse = true) (fun _ => False) := by
  unfold Sys.condTrap HandleDetermined
  rw [alike_handled (by decide)]
  have hnever : ∀ c, (f stack c).run s.kernel = .ok (.returned syncFail, s.kernel) ↔ False :=
    fun c => iff_false_intro (hf c)
  simp only [hnever]

/-- The calls of all condition variables that the words may name have to be known. -/
theorem steady_independent_iff
    (hs : ∀ l, Stays E p space trapArgs s l t ↔
      userTrap E p space trapArgs s l t ≠ .error .wildAccess)
    (ht : ∀ l, userTrap E p space trapArgs s l t =
      getUintFromTrapArg space trapArgs l.arg >>= s.condTrap f l.stack)
    (hf : ∀ stack c, ¬ Refuses (f stack c) s.kernel)
    (hsteady : ∀ c, Steady (fun stack => f stack c) s.kernel ↔ known c) :
    Independent E p space trapArgs s t ↔
      HandleDetermined space trapArgs (fun c => (s.kernel.conds c).inuse = true) (fun _ => False) ∧
        ∀ w, Candidate space trapArgs w → ∀ c, NamesCond s w c → known c := by
  rw [independent_iff_alike ht]
  constructor
  · rintro ⟨hstays, halike⟩
    constructor
    · rw [← alike_condTrap (hf fun _ => 0)]
      exact fun _ _ w w' => halike _ _ w w'
    · intro w hw c hc
      rw [← hsteady]
      constructor
      · intro stack e
        apply (hs (.withWord w stack)).mp (hstays _)
        rw [userTrap_withWord ht hw, condTrap_named hc, calls_error]
        exact e
      · intro stack stack'
        have heq := halike stack stack' w w hw hw
        rw [condTrap_named hc, condTrap_named hc] at heq
        exact calls_inj heq
  · rintro ⟨hhandle, hknown⟩
    constructor
    · intro l
      obtain ⟨w, hget, hw⟩ := getUint_candidate space trapArgs l.arg
      rw [hs, ht, hget, ok_bind]
      by_cases hc : ∃ c, NamesCond s w c
      · obtain ⟨c, hc⟩ := hc
        rw [condTrap_named hc, ne_eq, calls_error]
        exact ((hsteady c).mpr (hknown w hw c hc)).1 l.stack
      · rw [condTrap_other (not_exists.mp hc)]
        exact fun e => by cases e
    · intro stack stack' w w' hw hw'
      have hsame : s.condTrap f stack w = s.condTrap f stack' w := by
        by_cases hc : ∃ c, NamesCond s w c
        · obtain ⟨c, hc⟩ := hc
          rw [condTrap_named hc, condTrap_named hc]
          unfold Sys.calls
          rw [show f stack c s.kernel = f stack' c s.kernel from
            ((hsteady c).mpr (hknown w hw c hc)).2 stack stack']
        · rw [condTrap_other (not_exists.mp hc), condTrap_other (not_exists.mp hc)]
      exact hsame.trans ((alike_condTrap (hf stack')).mpr hhandle stack' stack' w w' hw hw')

end CondTrap

theorem condWait_independent_iff (hq : s.kernel.currentPCB = some p) :
    Independent E p space trapArgs s .condWait ↔
      HandleDetermined space trapArgs (fun c => (s.kernel.conds c).inuse = true) (fun _ => False) ∧
        ∀ w, Candidate space trapArgs w → ∀ c, NamesCond s w c → E.WaitKnown p s c := by
  apply steady_independent_iff (f := fun stack => E.condWait (E.memory stack s))
  · exact fun l => Iff.rfl
  · exact fun l => getInt_bind l.arg
  · exact fun stack c => condWait_refuses_never hq
  · exact fun c => condWait_steady hq

theorem condSignal_independent_iff (hq : s.kernel.currentPCB = some p) :
    Independent E p space trapArgs s .condSignal ↔
      HandleDetermined space trapArgs (fun c => (s.kernel.conds c).inuse = true) (fun _ => False) ∧
        ∀ w, Candidate space trapArgs w → ∀ c, NamesCond s w c → E.SignalKnown p s c := by
  apply steady_independent_iff (f := fun stack => E.condSignal (E.memory stack s))
  · exact fun l => Iff.rfl
  · exact fun l => getInt_bind l.arg
  · exact fun stack c => condSignal_refuses_never hq
  · exact fun c => condSignal_steady hq

end DlxOs.Traps
