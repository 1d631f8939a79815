import DlxOs.Kernel.Levels
import DlxOs.Traps.WordTraps

/-!
# Traps that are refused alike

The traps whose one argument word may be any of several. A call through a handle
that is refused leaves no trace only if nothing is printed and the interrupt
level stays; a creation fails alike when its table is full, and `mmap` when the
words name no page that it would map.
-/

namespace DlxOs.Traps

open Kernel (Halt PcbPtr KState KernelM Ret index ok_bind syncFail run_bind_ok run_bind_inv
  ownerCheck_inv lockAt_inv)

variable {σ : Type} {E : Env σ} {p : PcbPtr} {space : UserSpace} {trapArgs w : Word} {s : Sys σ}
  {t : Trap} {K : KState}

/-! ### Calls that are not refused -/

/-- A call that never fails. -/
def NeverFails (f : KernelM Ret) : Prop :=
  ∀ K K', f.run K ≠ .ok (.returned syncFail, K')

namespace NeverFails

theorem bind {α : Type} {x : KernelM α} {f : α → KernelM Ret} (h : ∀ a, NeverFails (f a)) :
    NeverFails (x >>= f) := by
  intro K K' e
  obtain ⟨a, X, -, e'⟩ := run_bind_inv e
  exact h a X K' e'

theorem success {i : BitVec 4} :
    NeverFails (do Kernel.restoreIntrs i; return .returned Kernel.syncSuccess) := by
  intro K K' e
  cases e

theorem asleep {i : BitVec 4} : NeverFails (return .asleep i) := by
  intro K K' e
  cases e

theorem semWait (i : Kernel.SemPtr) : NeverFails (Kernel.semWait i) := by
  refine .bind fun intrval => .bind fun K => ?_
  split
  · exact .bind fun _ => .bind fun _ => .asleep
  · exact .bind fun _ => .success

theorem semSignal (i : Kernel.SemPtr) : NeverFails (Kernel.semSignal i) := by
  refine .bind fun intrs => .bind fun _ => .bind fun K => ?_
  split
  · refine .bind fun b => ?_
    split
    · exact .bind fun _ => .bind fun _ => .bind fun _ => .success
    · exact .success
  · exact .success

theorem lockAcquire (k : Kernel.LockPtr) : NeverFails (Kernel.lockAcquire k) := by
  refine .bind fun intrval => .bind fun pid => .bind fun K => ?_
  split
  · exact .success
  · split
    · exact .bind fun _ => .bind fun _ => .asleep
    · exact .bind fun _ => .success

end NeverFails

/-- A call that is refused without a trace. -/
def Refuses (f : KernelM Ret) (K : KState) : Prop := f.run K = .ok (.returned syncFail, K)

theorem NeverFails.not_refuses {f : KernelM Ret} (h : NeverFails f) : ¬ Refuses f K := h K K

/-- The refusal of `CondWait` and `CondSignal` is printed. -/
theorem printed_not_refuses {text : String} :
    (do Kernel.printf text; Kernel.restoreIntrs K.intrs; return .returned syncFail :
      KernelM Ret).run (K.setIntrs 0xf) ≠ .ok (.returned syncFail, K) := by
  intro e
  injection e with e
  have hconsole := congrArg (fun r => r.2.console.length) e
  change (K.console ++ [text]).length = K.console.length at hconsole
  simp at hconsole

theorem condWait_not_refuses (c : Kernel.CondPtr) : ¬ Refuses (Kernel.condWait c) K := by
  intro e
  rw [Refuses, Kernel.condWait, run_bind_ok Kernel.disableIntrs_run, Kernel.get_bind_run] at e
  obtain ⟨k, X, hk, e'⟩ := run_bind_inv e
  obtain rfl := lockAt_inv hk
  obtain ⟨q, -, ⟨-, hrun⟩ | ⟨-, hrun⟩⟩ := ownerCheck_inv e'
  · exact printed_not_refuses hrun
  · exact NeverFails.bind (fun _ => .bind fun _ => .bind fun _ => .asleep) _ _ hrun

theorem condSignal_not_refuses (c : Kernel.CondPtr) : ¬ Refuses (Kernel.condSignal c) K := by
  intro e
  rw [Refuses, Kernel.condSignal, run_bind_ok Kernel.disableIntrs_run, Kernel.get_bind_run] at e
  obtain ⟨k, X, hk, e'⟩ := run_bind_inv e
  obtain rfl := lockAt_inv hk
  obtain ⟨q, -, ⟨-, hrun⟩ | ⟨-, hrun⟩⟩ := ownerCheck_inv e'
  · exact printed_not_refuses hrun
  · refine NeverFails.bind (fun b => ?_) _ _ hrun
    split
    · exact .bind fun _ => .bind fun _ => .bind fun _ => .bind fun _ => .bind fun _ => .asleep
    · exact .success

/-- Who does not own a lock is refused, with the interrupts disabled. -/
theorem lockRelease_refuses_iff (k : Kernel.LockPtr) : Refuses (Kernel.lockRelease k) K ↔
    ∃ p, K.currentPCB = some p ∧ (K.locks k).pid ≠ p.val ∧ K.intrs = 0xf := by
  rw [Refuses]
  constructor
  · intro e
    have hcheck := e
    rw [Kernel.lockRelease, run_bind_ok Kernel.disableIntrs_run] at hcheck
    obtain ⟨q, hq, ⟨hne, -⟩ | ⟨-, hrun⟩⟩ := ownerCheck_inv hcheck
    · have hcurrent : K.currentPCB = some q := hq
      have howner : (K.locks k).pid ≠ q.val := hne
      rw [Kernel.lockRelease_refused k hcurrent howner] at e
      injection e with e
      have hlevel := congrArg (fun r => r.2.intrs) e
      exact ⟨q, hcurrent, howner, hlevel.symm⟩
    · exact absurd hrun (NeverFails.bind (fun _ => .success) _ _)
  · rintro ⟨q, hq, hne, hlevel⟩
    rw [Kernel.lockRelease_refused k hq hne, ← hlevel]
    rfl

/-- A handle that is read completely, or refused whatever the rest of it is. -/
def HandleDetermined {n : ℕ} (space : UserSpace) (trapArgs : Word) (inuse refuses : Fin n → Prop) :
    Prop :=
  ReadsWord space trapArgs ∨ SomeNonzero space trapArgs ∨ ∀ i, inuse i → refuses i

/-- A trap that passes its one argument word on. -/
theorem getInt_bind {f : ℤ → Except Halt (Outcome σ)} (arg : Chars 4) :
    (getIntFromTrapArg space trapArgs arg >>= f) =
      getUintFromTrapArg space trapArgs arg >>= fun w => f w.toInt := by
  unfold getIntFromTrapArg
  cases getUintFromTrapArg space trapArgs arg with
  | error e => rfl
  | ok w => rfl

theorem handled_independent_iff {n : ℕ} (inuse : KState → Fin n → Bool) (f : Fin n → KernelM Ret)
    {refuses : Fin n → Prop} (hn : n ≤ 128) (hs : ∀ l, Stays E p space trapArgs s l t)
    (ht : ∀ l, userTrap E p space trapArgs s l t = getUintFromTrapArg space trapArgs l.arg >>=
      fun w => s.calls (Kernel.handled w.toInt inuse f))
    (hf : ∀ i, Refuses (f i) s.kernel ↔ refuses i) :
    Independent E p space trapArgs s t ↔
      HandleDetermined space trapArgs (fun i => inuse s.kernel i = true) refuses := by
  rw [independent_iff_alike (f := fun _ w => s.calls (Kernel.handled w.toInt inuse f)) ht,
    and_iff_right hs, alike_handled hn]
  unfold HandleDetermined
  simp only [← hf]
  rfl

/-! ### Creations -/

/-- A new semaphore has the count that was asked for. -/
theorem semCreate_count {i : Kernel.SemPtr}
    (hf : ((List.finRange Kernel.maxSems).find? fun i => !(K.sems i).inuse) = some i) (v : ℤ) :
    ∃ K', (Kernel.semCreate v).run K = .ok ((i.val : ℤ), K') ∧ (K'.sems i).count = v := by
  have hfind : ((List.finRange Kernel.maxSems).find? fun i => !((K.setIntrs 15).sems i).inuse) =
      some i := hf
  let X : KState := { K with sems := Function.update K.sems i { K.sems i with inuse := true } }
  let h := (Queue.aQueueInit K.heap (some (.named (.waiting (.sem i))))).2
  refine ⟨(X.setHeap h).setCount i v, ?_, ?_⟩
  · rw [Kernel.semCreate, run_bind_ok Kernel.disableIntrs_run, Kernel.get_bind_run]
    simp only [hfind]
    rfl
  · simp [KState.setCount]

theorem semCreate_full (hf : ∀ i, (K.sems i).inuse = true) (v : ℤ) :
    (Kernel.semCreate v).run K = .ok (syncFail, K) := by
  have hfind : ((List.finRange Kernel.maxSems).find? fun i => !((K.setIntrs 15).sems i).inuse) =
      none := by
    rw [List.find?_eq_none]
    intro i _
    have hi : ((K.setIntrs 15).sems i).inuse = true := hf i
    rw [hi]
    decide
  rw [Kernel.semCreate, run_bind_ok Kernel.disableIntrs_run, Kernel.get_bind_run]
  simp only [hfind]
  rfl

theorem creates_eq {f : KernelM ℤ} {v : ℤ} {K' : KState} (h : f.run s.kernel = .ok (v, K')) :
    s.creates f = .ok { Outcome.unchanged s with
      result := some (.returned v)
      sys := { s with kernel := K' } } := by
  unfold Sys.creates
  rw [show f s.kernel = .ok (v, K') from h]
  rfl

theorem wordOf_last {a b c d d' : Byte} (h : (wordOf a b c d).toInt = (wordOf a b c d').toInt) :
    d = d' := by
  have hw := congrArg BitVec.toNat (BitVec.eq_of_toInt_eq h)
  rw [toNat_wordOf, toNat_wordOf] at hw
  apply BitVec.eq_of_toNat_eq
  omega

theorem alike_semCreate : Alike space trapArgs (fun _ w => s.creates (Kernel.semCreate w.toInt)) ↔
    ReadsWord space trapArgs ∨ ∀ i, (s.kernel.sems i).inuse = true := by
  constructor
  · intro h
    by_contra hn
    push Not at hn
    obtain ⟨hr, i, hi⟩ := hn
    obtain ⟨j, hj⟩ : ∃ j, ((List.finRange Kernel.maxSems).find?
        fun i => !(s.kernel.sems i).inuse) = some j := by
      apply Option.isSome_iff_exists.mp
      rw [List.find?_isSome]
      exact ⟨i, List.mem_finRange i, by simpa using hi⟩
    obtain ⟨a, b, c, hall⟩ := exists_candidate hr
    obtain ⟨K₀, h₀, hcount₀⟩ := semCreate_count hj (wordOf a b c 0).toInt
    obtain ⟨K₁, h₁, hcount₁⟩ := semCreate_count hj (wordOf a b c 1).toInt
    have heq := h (fun _ => 0) (fun _ => 0) _ _ (hall 0) (hall 1)
    simp only [creates_eq h₀, creates_eq h₁] at heq
    injection heq with heq
    have hK : K₀ = K₁ := congrArg (fun o => o.sys.kernel) heq
    have hcount := congrArg (fun K => (K.sems j).count) hK
    have hlast := wordOf_last (hcount₀.symm.trans (hcount.trans hcount₁))
    exact absurd hlast (by decide)
  · rintro (hr | hfull)
    · exact alike_of_reads hr
    · intro _ _ w w' _ _
      simp only [creates_eq (semCreate_full hfull _)]

/-! ### Shared pages -/

/-- `mmap` finds no page to map, or only one that is there already. -/
def MapsNothing (o : Memory.Os) (p : PcbPtr) (w : Word) : Prop :=
  w = 0 ∨ ∀ i, o.findEntry w.toNat = some i → ∃ j,
    Memory.findPte (o.pcbs p) (w <<< 16) (o.pcbs p).npages.toNat 0 = .ok j ∧
      ((j : ℤ) = (o.pcbs p).npages ∧ 15 < (o.pcbs p).npages ∨
        (j : ℤ) ≠ (o.pcbs p).npages ∧ BitVec.ofNat 32 j <<< 16 = 0 ∧
          (o.spages i).bits ||| (1#32 <<< p.val) = (o.spages i).bits)

variable {o o' : Memory.Os}

/-- What `mmap` returns when the page of entry `i` is page `j` of the process. -/
def mappedAt (p : PcbPtr) (i : Fin Memory.memoryMaxSharedPages) (j : ℕ) (o : Memory.Os) :
    BitVec 32 × Memory.Os :=
  (BitVec.ofNat 32 j <<< 16,
    o.setEntry i { o.spages i with bits := (o.spages i).bits ||| (1#32 <<< p.val) })

theorem mmapEntry_eq {i : Fin Memory.memoryMaxSharedPages} {j : ℕ}
    (hj : Memory.findPte (o.pcbs p) (w <<< 16) (o.pcbs p).npages.toNat 0 = .ok j) :
    Memory.mmapEntry o p w i =
      if (j : ℤ) = (o.pcbs p).npages then
        if (o.pcbs p).npages ≤ 15 then
          o.appendPte p (Memory.memorySetupPte w) >>= fun o' => .ok (mappedAt p i j o')
        else .ok (0, o)
      else .ok (mappedAt p i j o) := by
  unfold Memory.mmapEntry
  simp only
  rw [hj]
  rfl

theorem mappedAt_eq_nothing {i : Fin Memory.memoryMaxSharedPages} {j : ℕ} :
    mappedAt p i j o = (0, o) ↔ BitVec.ofNat 32 j <<< 16 = 0 ∧
      (o.spages i).bits ||| (1#32 <<< p.val) = (o.spages i).bits := by
  constructor
  · intro h
    obtain ⟨hj, hentry⟩ := Prod.mk.inj h
    have hbits := congrArg (fun o : Memory.Os => (o.spages i).bits) hentry
    exact ⟨hj, by simpa [Memory.Os.setEntry] using hbits⟩
  · rintro ⟨hj, hbits⟩
    rw [mappedAt, hj, hbits]
    simp [Memory.Os.setEntry]

theorem appendPte_npages {pte : BitVec 32} (h : o.appendPte p pte = .ok o') :
    (o'.pcbs p).npages = (o.pcbs p).npages + 1 := by
  unfold Memory.Os.appendPte at h
  simp only at h
  split at h
  · obtain rfl := Except.ok.inj h
    simp [Memory.Os.setPcb]
  · cases h

theorem mmap_nothing_iff : Memory.mmap o p w = .ok (0, o) ↔ MapsNothing o p w := by
  unfold Memory.mmap MapsNothing
  by_cases hw : w = 0
  · exact iff_of_true (if_pos hw) (Or.inl hw)
  rw [if_neg hw]
  cases hi : o.findEntry w.toNat with
  | none => exact iff_of_true rfl (Or.inr fun _ h => absurd h (by simp))
  | some i =>
      simp only [Option.some.injEq, hw, false_or, forall_eq']
      cases hj : Memory.findPte (o.pcbs p) (w <<< 16) (o.pcbs p).npages.toNat 0 with
      | error e =>
          refine iff_of_false ?_ (by simp)
          unfold Memory.mmapEntry
          simp only
          rw [hj]
          exact fun h => by cases h
      | ok j =>
          simp only [mmapEntry_eq hj, Except.ok.injEq, exists_eq_left']
          by_cases hend : (j : ℤ) = (o.pcbs p).npages
          · simp only [hend, if_true, true_and, ne_eq, not_true_eq_false, false_and, or_false]
            by_cases hfull : (o.pcbs p).npages ≤ 15
            · rw [if_pos hfull]
              refine iff_of_false (fun e => ?_) (by omega)
              obtain ⟨o', ho', e'⟩ := Kernel.ok_bind_inv e
              have hpages := appendPte_npages ho'
              have hsame := congrArg (fun o : Memory.Os => (o.pcbs p).npages)
                (Prod.mk.inj (Except.ok.inj e')).2
              change (o'.pcbs p).npages = (o.pcbs p).npages at hsame
              omega
            · rw [if_neg hfull]
              exact iff_of_true rfl (by omega)
          · simp only [hend, if_false, false_and, ne_eq, not_false_eq_true, true_and, false_or,
              Except.ok.injEq]
            exact mappedAt_eq_nothing

/-- Of the words with an open last byte, one names no shared page. -/
theorem exists_unshared (o : Memory.Os) (a b c : Byte) :
    ∃ d : Byte, o.findEntry (wordOf a b c d).toNat = none := by
  by_contra hn
  push Not at hn
  have hpage : ∀ d : Byte, ∃ i, (o.spages i).page = (wordOf a b c d).toNat := by
    intro d
    obtain ⟨i, hi⟩ := Option.ne_none_iff_exists'.mp (hn d)
    exact ⟨i, by simpa using Fin.eq_true_of_find?_eq_some hi⟩
  choose f hf using hpage
  have hinj : Function.Injective f := by
    intro d d' h
    have := (hf d).symm.trans ((congrArg (fun i => (o.spages i).page) h).trans (hf d'))
    rw [toNat_wordOf, toNat_wordOf] at this
    apply BitVec.eq_of_toNat_eq
    omega
  have hcard := Fintype.card_le_of_injective (fun x : Fin 256 => f (BitVec.ofFin x))
    (hinj.comp fun x y h => by simpa using h)
  rw [Fintype.card_fin, Fintype.card_fin] at hcard
  exact absurd hcard (by decide)

theorem alike_mmap : Alike space trapArgs (fun _ w => do
      let (handle, pages) ← Memory.mmap s.pages p w
      return { Outcome.unchanged { s with pages := pages } with
        result := some (.returned handle.toInt) }) ↔
    ReadsWord space trapArgs ∨
      ∀ w, Candidate space trapArgs w → MapsNothing s.pages p w := by
  constructor
  · intro h
    by_cases hr : ReadsWord space trapArgs
    · exact Or.inl hr
    refine Or.inr fun w hw => ?_
    obtain ⟨a, b, c, hall⟩ := exists_candidate hr
    obtain ⟨d, hd⟩ := exists_unshared s.pages a b c
    have hnothing : Memory.mmap s.pages p (wordOf a b c d) = .ok (0, s.pages) :=
      mmap_nothing_iff.mpr (Or.inr fun i hi => by rw [hd] at hi; cases hi)
    have heq := h (fun _ => 0) (fun _ => 0) w _ hw (hall d)
    simp only [hnothing, ok_bind] at heq
    obtain ⟨⟨v, pages⟩, hm, hout⟩ := Kernel.ok_bind_inv heq
    injection hout with hout
    have hpages : pages = s.pages := congrArg (fun o => o.sys.pages) hout
    have hresult : v.toInt = (0 : Word).toInt := by
      have := congrArg Outcome.result hout
      simpa using this
    rw [← mmap_nothing_iff, hm, hpages, BitVec.eq_of_toInt_eq hresult]
  · rintro (hr | hall)
    · exact alike_of_reads hr
    · intro _ _ w w' hw hw'
      simp only [mmap_nothing_iff.mpr (hall w hw), mmap_nothing_iff.mpr (hall w' hw')]

end DlxOs.Traps
