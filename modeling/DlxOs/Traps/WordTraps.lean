import DlxOs.Traps.Leftovers

/-!
# Traps with one argument word

What a process passes to the traps of semaphores, locks, condition variables and
shared pages is one word. Where fewer than its four bytes are mapped, it may be
any word that begins with those that are; the outcome is the same only if all
these words are refused alike.
-/

namespace DlxOs.Traps

open Kernel (Halt PcbPtr KState KernelM Ret index ok_bind syncFail)
open Memory (Bytes)

variable {σ : Type} {E : Env σ} {p : PcbPtr} {space : UserSpace} {trapArgs w w' : Word} {s : Sys σ}
  {l l' : Leftovers} {t : Trap} {n k : ℕ}

/-! ### The words that are left open -/

def ReadsWord (space : UserSpace) (trapArgs : Word) : Prop :=
  (readable space trapArgs 4).length = 4

/-- A word that begins with the bytes that are mapped. -/
def Candidate (space : UserSpace) (trapArgs w : Word) : Prop :=
  readable space trapArgs 4 <+: bytesOf w

/-- One of the bytes that are mapped is not zero. -/
def SomeNonzero (space : UserSpace) (trapArgs : Word) : Prop :=
  ∃ b ∈ readable space trapArgs 4, b ≠ 0

instance : Decidable (ReadsWord space trapArgs) := by unfold ReadsWord; infer_instance

instance : Decidable (Candidate space trapArgs w) := by unfold Candidate; infer_instance

def wordOf (a b c d : Byte) : Word := a ++ b ++ c ++ d

theorem bytesOf_wordOf (a b c d : Byte) : bytesOf (wordOf a b c d) = [a, b, c, d] := by
  simp only [bytesOf, wordOf, List.cons.injEq, and_true]
  refine ⟨?_, ?_, ?_, ?_⟩ <;> ext i hi <;> simp <;> grind

theorem bytesOf_inj (h : bytesOf w = bytesOf w') : w = w' := by
  simp only [bytesOf, List.cons.injEq, and_true] at h
  obtain ⟨h₁, h₂, h₃, h₄⟩ := h
  rw [← append_bytesOf (w := w), ← append_bytesOf (w := w'), h₁, h₂, h₃, h₄]

theorem word_four (s : Chars 4) : ∃ w, s.word 0 = .ok w ∧ List.ofFn s = bytesOf w :=
  ⟨wordOf (s 0) (s 1) (s 2) (s 3), rfl, by rw [bytesOf_wordOf]; rfl⟩

theorem getUint_eq (arg : Chars 4) : getUintFromTrapArg space trapArgs arg =
    Chars.word (place arg 0 (readable space trapArgs 4)) 0 := by
  rw [getUintFromTrapArg, memoryCopyUserToSystem_eq (by decide), ok_bind]

theorem getUint_candidate (space : UserSpace) (trapArgs : Word) (arg : Chars 4) :
    ∃ w, getUintFromTrapArg space trapArgs arg = .ok w ∧ Candidate space trapArgs w := by
  obtain ⟨w, hw, hb⟩ := word_four (place arg 0 (readable space trapArgs 4))
  refine ⟨w, (getUint_eq arg).trans hw, ?_⟩
  rw [Candidate, ← hb]
  have ht := take_place arg (readable space trapArgs 4) length_readable_le
  exact List.prefix_iff_eq_take.mpr ht.symm

/-- Every one of these words comes out, if the stack held it. -/
theorem candidate_getUint (h : Candidate space trapArgs w) :
    getUintFromTrapArg space trapArgs (fun i => (bytesOf w).get i) = .ok w := by
  have hrest : Chars.rest (show Chars 4 from fun i => (bytesOf w).get i) 0 = bytesOf w := rfl
  rw [getUint_eq, place_eq_self (h.trans (by rw [hrest]))]
  exact congrArg Except.ok append_bytesOf

theorem candidate_unique (h : ReadsWord space trapArgs) (hw : Candidate space trapArgs w)
    (hw' : Candidate space trapArgs w') : w = w' := by
  apply bytesOf_inj
  have e : ∀ {v}, Candidate space trapArgs v → readable space trapArgs 4 = bytesOf v :=
    fun hv => hv.eq_of_length h
  rw [← e hw, ← e hw']

theorem length_le_three (h : ¬ ReadsWord space trapArgs) :
    (readable space trapArgs 4).length ≤ 3 := by
  have hle : (readable space trapArgs 4).length ≤ 4 := length_readable_le
  unfold ReadsWord at h
  omega

/-- The last byte is open. -/
theorem exists_candidate (h : ¬ ReadsWord space trapArgs) :
    ∃ a b c, ∀ d, Candidate space trapArgs (wordOf a b c d) := by
  have hlen := length_le_three h
  unfold Candidate
  simp only [bytesOf_wordOf]
  match readable space trapArgs 4, hlen with
  | [], _ => exact ⟨0, 0, 0, fun d => List.nil_prefix⟩
  | [a], _ => exact ⟨a, 0, 0, fun d => ⟨[0, 0, d], rfl⟩⟩
  | [a, b], _ => exact ⟨a, b, 0, fun d => ⟨[0, d], rfl⟩⟩
  | [a, b, c], _ => exact ⟨a, b, c, fun d => ⟨[d], rfl⟩⟩

theorem toNat_wordOf (a b c d : Byte) : (wordOf a b c d).toNat =
    2 ^ 24 * a.toNat + 2 ^ 16 * b.toNat + 2 ^ 8 * c.toNat + d.toNat := by
  have ha := a.isLt
  have hb := b.isLt
  have hc := c.isLt
  have hd := d.isLt
  simp only [wordOf, BitVec.toNat_append]
  rw [← Nat.shiftLeft_add_eq_or_of_lt hd, ← Nat.shiftLeft_add_eq_or_of_lt hc,
    ← Nat.shiftLeft_add_eq_or_of_lt hb]
  simp only [Nat.shiftLeft_eq]
  omega

/-! ### Traps that pass the word on -/

/-- All words that are left open lead to the same outcome, whatever the stack held. -/
def Alike (space : UserSpace) (trapArgs : Word) (f : Bytes → Word → Except Halt (Outcome σ)) :
    Prop :=
  ∀ stack stack' w w', Candidate space trapArgs w → Candidate space trapArgs w' →
    f stack w = f stack' w'

theorem alike_of_reads {f : Word → Except Halt (Outcome σ)} (h : ReadsWord space trapArgs) :
    Alike space trapArgs fun _ => f := by
  intro _ _ w w' hw hw'
  simp only [candidate_unique h hw hw']

def Leftovers.zero : Leftovers where
  arg _ := 0
  args _ := 0
  filename _ := 0
  printf := ⟨fun _ => 0, fun _ => 0, fun _ => 0⟩
  create := ⟨fun _ => 0, fun _ => 0, fun _ => 0⟩
  fork := ⟨fun _ => 0, fun _ _ => ' '⟩
  stack _ := 0

/-- Leftovers that make the word this one. -/
def Leftovers.withWord (w : Word) (stack : Bytes) : Leftovers :=
  { Leftovers.zero with arg := fun i => (bytesOf w).get i, stack := stack }

section Alike

variable {f : Bytes → Word → Except Halt (Outcome σ)}

theorem userTrap_withWord (hf : ∀ l, userTrap E p space trapArgs s l t =
      getUintFromTrapArg space trapArgs l.arg >>= f l.stack)
    (hw : Candidate space trapArgs w) (stack : Bytes) :
    userTrap E p space trapArgs s (.withWord w stack) t = f stack w := by
  rw [hf]
  simp only [Leftovers.withWord]
  rw [candidate_getUint hw, ok_bind]

theorem independent_iff_alike (hf : ∀ l, userTrap E p space trapArgs s l t =
      getUintFromTrapArg space trapArgs l.arg >>= f l.stack) :
    Independent E p space trapArgs s t ↔
      (∀ l, Stays E p space trapArgs s l t) ∧ Alike space trapArgs f := by
  constructor
  · intro h
    refine ⟨fun l => (h l l).1, fun stack stack' w w' hw hw' => ?_⟩
    rw [← userTrap_withWord hf hw stack, ← userTrap_withWord hf hw' stack']
    exact (h _ _).2
  · rintro ⟨hs, h⟩ l l'
    obtain ⟨w, hw, cw⟩ := getUint_candidate space trapArgs l.arg
    obtain ⟨w', hw', cw'⟩ := getUint_candidate space trapArgs l'.arg
    refine ⟨hs l, ?_⟩
    rw [hf, hf, hw, hw', ok_bind, ok_bind]
    exact h _ _ w w' cw cw'

end Alike

/-! ### Handles -/

theorem toNat_pos {b : Byte} (h : b ≠ 0) : 0 < b.toNat :=
  Nat.pos_of_ne_zero fun hz => h (BitVec.eq_of_toNat_eq hz)

theorem index_beyond {a b c d : Byte} (hn : n ≤ 128) (h : n ≤ d.toNat ∨ a ≠ 0 ∨ b ≠ 0 ∨ c ≠ 0) :
    index n (wordOf a b c d).toInt = none := by
  refine dif_neg fun ⟨h₁, h₂⟩ => ?_
  have hnat := toNat_wordOf a b c d
  rw [BitVec.toInt_eq_toNat_cond] at h₁ h₂
  have hd := d.isLt
  rcases h with h | h | h | h
  · split_ifs at h₁ h₂ <;> omega
  · have ha := toNat_pos h
    split_ifs at h₁ h₂ <;> omega
  · have hb := toNat_pos h
    split_ifs at h₁ h₂ <;> omega
  · have hc := toNat_pos h
    split_ifs at h₁ h₂ <;> omega

theorem index_low {i : Fin n} (hn : n ≤ 128) :
    index n (wordOf 0 0 0 (BitVec.ofNat 8 i.val)).toInt = some i := by
  have hi := i.isLt
  have hnat : (wordOf 0 0 0 (BitVec.ofNat 8 i.val)).toNat = i.val := by
    rw [toNat_wordOf]
    simp
    omega
  have hint : (wordOf 0 0 0 (BitVec.ofNat 8 i.val)).toInt = i.val := by
    rw [BitVec.toInt_eq_toNat_cond, hnat, if_pos (by omega)]
  rw [hint]
  unfold index
  rw [dif_pos (by omega)]
  rfl

/-- A call through a handle that is refused. -/
def refused (s : Sys σ) : Except Halt (Outcome σ) :=
  .ok { Outcome.unchanged s with result := some (.returned syncFail) }

theorem calls_error {f : KernelM Ret} {e : Halt} :
    s.calls f = .error e ↔ f.run s.kernel = .error e := by
  unfold Sys.calls
  cases hf : f.run s.kernel with
  | error e' =>
      rw [show f s.kernel = .error e' from hf]
      exact ⟨fun h => congrArg Except.error (Except.error.inj h),
        fun h => congrArg Except.error (Except.error.inj h)⟩
  | ok r =>
      rw [show f s.kernel = .ok r from hf]
      exact iff_of_false (fun h => by cases h) (fun h => by cases h)

theorem calls_inj {f g : KernelM Ret} (h : s.calls f = s.calls g) :
    f.run s.kernel = g.run s.kernel := by
  cases hf : f.run s.kernel with
  | error e => rw [calls_error.mp (h.symm.trans (calls_error.mpr hf))]
  | ok r =>
      cases hg : g.run s.kernel with
      | error e =>
          have := calls_error.mp (h.trans (calls_error.mpr hg))
          rw [hf] at this
          cases this
      | ok r' =>
          unfold Sys.calls at h
          rw [show f s.kernel = .ok r from hf, show g s.kernel = .ok r' from hg, ok_bind,
            ok_bind] at h
          have hout := Except.ok.inj h
          have hr : r.1 = r'.1 := Option.some.inj (congrArg Outcome.result hout)
          have hk : r.2 = r'.2 := congrArg (fun o => o.sys.kernel) hout
          rw [Prod.ext hr hk]

theorem calls_eq_refused (f : KernelM Ret) :
    s.calls f = refused s ↔ f.run s.kernel = .ok (.returned syncFail, s.kernel) := by
  constructor
  · exact fun h => calls_inj (g := return .returned syncFail) h
  · intro h
    unfold Sys.calls
    rw [show f s.kernel = _ from h]
    rfl

theorem calls_handled {inuse : KState → Fin n → Bool} {f : Fin n → KernelM Ret} (v : ℤ) :
    s.calls (Kernel.handled v inuse f) =
      match index n v with
      | none => refused s
      | some i => if inuse s.kernel i = true then s.calls (f i) else refused s := by
  unfold Kernel.handled
  cases index n v with
  | none => rfl
  | some i =>
      simp only [Sys.calls]
      have hrun : (do if inuse (← get) i = true then f i else return .returned syncFail :
          KernelM Ret) s.kernel =
          (if inuse s.kernel i = true then f i else return .returned syncFail : KernelM Ret)
            s.kernel := rfl
      rw [hrun]
      split_ifs with h
      · rfl
      · rfl

theorem wordOf_bytes (w : Word) : ∃ a b c d, w = wordOf a b c d :=
  ⟨_, _, _, _, append_bytesOf.symm⟩

/-- A byte that is not zero names no entry of a table. -/
theorem candidate_beyond (hr : ¬ ReadsWord space trapArgs) (h : SomeNonzero space trapArgs)
    (hw : Candidate space trapArgs w) (hn : n ≤ 128) : index n w.toInt = none := by
  obtain ⟨a, b, c, d, rfl⟩ := wordOf_bytes w
  obtain ⟨x, hx, hx₀⟩ := h
  rw [Candidate, bytesOf_wordOf] at hw
  have hlen := length_le_three hr
  have hthree : readable space trapArgs 4 <+: [a, b, c] :=
    List.prefix_of_prefix_length_le hw ⟨[d], rfl⟩ hlen
  refine index_beyond hn (Or.inr ?_)
  have hmem := hthree.subset hx
  simp only [List.mem_cons, List.not_mem_nil, or_false] at hmem
  rcases hmem with rfl | rfl | rfl
  · exact Or.inl hx₀
  · exact Or.inr (Or.inl hx₀)
  · exact Or.inr (Or.inr hx₀)

theorem candidate_low (hr : ¬ ReadsWord space trapArgs) (h : ¬ SomeNonzero space trapArgs)
    (d : Byte) : Candidate space trapArgs (wordOf 0 0 0 d) := by
  have hlen := length_le_three hr
  have hzero : readable space trapArgs 4 =
      List.replicate (readable space trapArgs 4).length 0 :=
    List.eq_replicate_of_mem fun b hb => by
      by_contra hne
      exact h ⟨b, hb, hne⟩
  rw [Candidate, bytesOf_wordOf, hzero]
  match (readable space trapArgs 4).length, hlen with
  | 0, _ => exact List.nil_prefix
  | 1, _ => exact ⟨[0, 0, d], rfl⟩
  | 2, _ => exact ⟨[0, d], rfl⟩
  | 3, _ => exact ⟨[d], rfl⟩

/-- A handle that is not read completely is harmless only if every entry in use refuses the call. -/
theorem alike_handled {inuse : KState → Fin n → Bool} {f : Fin n → KernelM Ret} (hn : n ≤ 128) :
    Alike space trapArgs (fun _ w => s.calls (Kernel.handled w.toInt inuse f)) ↔
      ReadsWord space trapArgs ∨ SomeNonzero space trapArgs ∨
        ∀ i, inuse s.kernel i = true →
          (f i).run s.kernel = .ok (.returned syncFail, s.kernel) := by
  by_cases hr : ReadsWord space trapArgs
  · exact iff_of_true (alike_of_reads hr) (Or.inl hr)
  by_cases hz : SomeNonzero space trapArgs
  · refine iff_of_true (fun _ _ w w' hw hw' => ?_) (Or.inr (Or.inl hz))
    simp only [calls_handled, candidate_beyond hr hz hw hn, candidate_beyond hr hz hw' hn]
  constructor
  · intro h
    refine Or.inr (Or.inr fun i hi => ?_)
    have hw := h (fun _ => 0) (fun _ => 0) _ _ (candidate_low hr hz (BitVec.ofNat 8 i.val))
      (candidate_low hr hz 255)
    simp only [calls_handled, index_low hn,
      index_beyond (a := 0) (b := 0) (c := 0) (d := 255) hn (Or.inl (hn.trans (by decide)))] at hw
    rw [if_pos hi] at hw
    exact (calls_eq_refused _).mp hw
  · intro h
    have hall : ∀ w : Word, s.calls (Kernel.handled w.toInt inuse f) = refused s := by
      intro w
      rw [calls_handled]
      cases hi : index n w.toInt with
      | none => rfl
      | some i =>
          simp only
          split_ifs with hu
          · exact (calls_eq_refused _).mpr (((h.resolve_left hr).resolve_left hz) i hu)
          · rfl
    exact fun _ _ w w' _ _ => (hall w).trans (hall w').symm

end DlxOs.Traps
