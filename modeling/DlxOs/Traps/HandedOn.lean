import DlxOs.Traps.KnownText
import DlxOs.Traps.Launch
import DlxOs.Traps.Scanned

/-!
# What process creation hands on

The handler of process creation hands a name and 992 characters of its argument
buffer on, over what its arrays held before. What comes to the stack of the new
process depends on these characters, and on nothing else.
-/

namespace DlxOs.Traps

open Kernel (Halt ok_bind)
open Memory (Bytes)

variable {k rounds : ℕ} {space : UserSpace} {trapArgs a : Word} {u bs : List Byte}
  {l : CreateArrays} {str str' : Chars sizeArgBuff}

/-! ### What the handler hands on -/

/-- An argument array that begins with the bytes that are mapped. -/
def Receives (space : UserSpace) (trapArgs : Word) (args : Chars (4 * maxArgs)) : Prop :=
  readable space trapArgs (4 * maxArgs) <+: List.ofFn args

theorem received_receives (l : CreateArrays) :
    Receives space trapArgs (received space trapArgs l) := by
  have ht := take_place l.args (readable space trapArgs (4 * maxArgs)) length_readable_le
  exact List.prefix_iff_eq_take.mpr ht.symm

theorem received_of_receives (h : Receives space trapArgs l.args) :
    received space trapArgs l = l.args := by
  apply place_eq_self
  rwa [Chars.rest, List.drop_zero]

/-- The name and the 992 characters that come to the new process. -/
structure HandsOn (call : ForkCall) (name bs : List Byte) : Prop where
  name : StringAt call.name 0 name
  args : (call.allargs.rest 0).take (sizeArgBuff - 32) = bs

/-- The name that comes out when the stack held these characters. -/
def nameOf (space : UserSpace) (args : Chars (4 * maxArgs)) (name : Chars 100) : List Byte :=
  fetchedString space 99 (programName args) (name.rest 0)

/-- The characters that are handed on. -/
def argsOf (space : UserSpace) (args : Chars (4 * maxArgs)) (allargs : Chars sizeArgBuff) :
    List Byte :=
  (List.ofFn (packedBuffer space (argVector args 11 0) allargs)).take (sizeArgBuff - 32)

theorem create_ok (hfits : Fits space (argVector (received space trapArgs l) 11 0)
      ((cleared l.allargs).rest 0)) :
    ∃ call, trapProcessCreateUser space trapArgs l = .ok call ∧
      HandsOn call (nameOf space (received space trapArgs l) l.name)
        (argsOf space (received space trapArgs l) l.allargs) := by
  refine ⟨⟨Function.update (packedBuffer space (argVector (received space trapArgs l) 11 0)
    l.allargs) ⟨1023, by decide⟩ 0,
    handedName space (programName (received space trapArgs l)) l.name⟩, ?_, ?_, ?_⟩
  · rw [trapProcessCreateUser_eq, copyArgs_eq (by decide) hfits, ok_bind, packedBuffer]
  · exact stringAt_fetched (by decide)
  · unfold argsOf
    apply List.ext_getElem
    · simp
    · intro m h₁ h₂
      rw [List.length_take, Chars.length_rest] at h₁
      have hsize : sizeArgBuff = 1024 := rfl
      have hne : (⟨m, by omega⟩ : Fin sizeArgBuff) ≠ ⟨1023, by decide⟩ := by
        intro e
        have hval := congrArg Fin.val e
        simp only at hval
        omega
      simp only [Chars.rest, List.drop_zero, List.getElem_take, List.getElem_ofFn]
      exact Function.update_of_ne hne ..

/-! ### The vector on the stack of the new process -/

section Vector

variable {location count : ℕ} {dum dum' : Dum} {r : ℕ × Dum}

/-- The same words stand at the indices from `lo` to before `hi`. -/
def SameWords (lo hi : ℕ) (dum dum' : Dum) : Prop :=
  ∀ i : Fin (maxArgs + 8), lo ≤ i.val → i.val < hi → dum' i = dum i

theorem SameWords.update {lo hi : ℕ} {k : Fin (maxArgs + 8)} {w : Word}
    (h : SameWords lo hi dum dum') (hk : k.val = hi) :
    SameWords lo (hi + 1) (Function.update dum k w) (Function.update dum' k w) := by
  intro i hlo hlt
  rcases eq_or_ne i k with rfl | hne
  · rw [Function.update_self, Function.update_self]
  · rw [Function.update_of_ne hne, Function.update_of_ne hne]
    have hik : i.val ≠ k.val := fun e => hne (Fin.ext e)
    exact h i hlo (by omega)

theorem skipArgument_congr (h : ∀ m ≤ 100, str'.load m = str.load m) :
    skipArgument str' rounds location = skipArgument str rounds location := by
  induction rounds generalizing location with
  | zero => rfl
  | succ rounds ih =>
      unfold skipArgument
      by_cases hl : location < 100
      · rw [if_pos hl, if_pos hl, h location (by omega), ih]
      · rw [if_neg hl, if_neg hl]

theorem getArgument_congr (h : ∀ m ≤ 100, str'.load m = str.load m) (hl : location ≤ 100) :
    getArgument str' location = getArgument str location := by
  unfold getArgument
  rw [h location hl, skipArgument_congr h]

theorem getArgument_le {offset location' : ℕ} (hl : location ≤ 100)
    (e : getArgument str location = .ok (offset, location')) : location' ≤ 100 := by
  rcases getArgument_ok str hl with e' | ⟨l', e', -, hle⟩
  · obtain ⟨-, rfl⟩ := Prod.mk.inj (Except.ok.inj (e.symm.trans e'))
    exact hl
  · obtain ⟨-, rfl⟩ := Prod.mk.inj (Except.ok.inj (e.symm.trans e'))
    exact hle

/-- The loop enters the same words, whatever stood there. -/
theorem pointArguments_congr (h : ∀ m ≤ 100, str'.load m = str.load m) (hl : location ≤ 100)
    (hd : SameWords 2 count dum dum')
    (e : pointArguments str rounds count location dum = .ok r) :
    ∃ d, pointArguments str' rounds count location dum' = .ok (r.1, d) ∧
      SameWords 2 r.1 r.2 d := by
  induction rounds generalizing count location dum dum' with
  | zero => cases e
  | succ rounds ih =>
      unfold pointArguments at e ⊢
      rw [getArgument_congr h hl]
      obtain ⟨⟨offset, location'⟩, harg, e'⟩ := Kernel.ok_bind_inv e
      have hle := getArgument_le hl harg
      rw [harg, ok_bind]
      simp only at e' ⊢
      obtain ⟨d, hstore, e''⟩ := Kernel.ok_bind_inv e'
      unfold Dum.store at hstore ⊢
      split at hstore
      · rename_i hin
        obtain rfl := Except.ok.inj hstore
        rw [dif_pos hin, ok_bind]
        split at e''
        · obtain rfl := Except.ok.inj e''
          refine ⟨_, if_pos ‹_›, ?_⟩
          intro i hlo hlt
          exact hd.update rfl i hlo (Nat.lt_succ_of_lt hlt)
        · rw [if_neg ‹_›]
          exact ih hle (hd.update rfl) e''
      · cases hstore

/-- What comes onto the stack does not depend on what `dum` held. -/
theorem forkArguments_congr (dum' : Dum) (h : ∀ m ≤ 100, str'.load m = str.load m)
    (e : forkArguments str dum = .ok r) :
    ∃ d, forkArguments str' dum' = .ok (r.1, d) ∧ SameWords 0 r.1 r.2 d := by
  unfold forkArguments at e ⊢
  rw [getArgument_congr h (Nat.zero_le _)]
  obtain ⟨⟨offset, location⟩, harg, e₁⟩ := Kernel.ok_bind_inv e
  have hle := getArgument_le (Nat.zero_le _) harg
  rw [harg, ok_bind]
  simp only at e₁ ⊢
  rw [Dum.store_eq (by decide), ok_bind] at e₁ ⊢
  obtain ⟨⟨count, d⟩, hpoint, e₂⟩ := Kernel.ok_bind_inv e₁
  have hstart : SameWords 2 2 dum dum' := fun i hlo hlt => absurd hlo (by omega)
  obtain ⟨d', hpoint', hsame⟩ := pointArguments_congr h hle (hstart.update rfl) hpoint
  rw [hpoint', ok_bind]
  simp only at e₂ ⊢
  rw [Dum.store_eq (by decide), ok_bind, Dum.store_eq (by decide), ok_bind] at e₂ ⊢
  obtain rfl := Except.ok.inj e₂
  refine ⟨_, rfl, ?_⟩
  intro i _ hlt
  change Function.update _ _ _ i = Function.update _ _ _ i
  rcases eq_or_ne i ⟨1, by decide⟩ with rfl | hone
  · rw [Function.update_self, Function.update_self]
  · rw [Function.update_of_ne hone, Function.update_of_ne hone]
    rcases eq_or_ne i ⟨0, by decide⟩ with rfl | hzero
    · rw [Function.update_self, Function.update_self]
    · rw [Function.update_of_ne hzero, Function.update_of_ne hzero]
      have h₁ : i.val ≠ 1 := fun e => hone (Fin.ext e)
      have h₀ : i.val ≠ 0 := fun e => hzero (Fin.ext e)
      exact hsame i (by omega) hlt

end Vector

/-! ### The start of the new process -/

section Start

variable {pcb : Memory.PCB} {frame : Word} {mem : Bytes}

theorem load_congr {m : ℕ} (h : (str'.rest 0).take k = (str.rest 0).take k) (hm : m < k)
    (hk : k ≤ sizeArgBuff) : str'.load m = str.load m := by
  have hat := congrArg (·[m]?) h
  simp only [List.getElem?_take_of_lt hm, Chars.rest, List.drop_zero] at hat
  rw [List.getElem?_ofFn, List.getElem?_ofFn, dif_pos (by omega), dif_pos (by omega)] at hat
  rw [Chars.load_eq (by omega), Chars.load_eq (by omega), Option.some.inj hat]

/-- Characters that are handed on alike have the same effect, whatever `dum` held. -/
theorem startArguments_congr (dum dum' : Dum) (h : (str.rest 0).take (sizeArgBuff - 32) = bs)
    (h' : (str'.rest 0).take (sizeArgBuff - 32) = bs) :
    startArguments pcb str' dum' mem = startArguments pcb str dum mem := by
  have htaken := h'.trans h.symm
  have hload : ∀ m ≤ 100, str'.load m = str.load m :=
    fun m hm => load_congr htaken (hm.trans_lt (by decide)) (by decide)
  obtain ⟨count, d, hfork, -⟩ := forkArguments_ok str dum
  obtain ⟨d', hfork', hsame⟩ := forkArguments_congr dum' hload hfork
  have hwords : (List.ofFn d').take count = (List.ofFn d).take count := by
    apply List.ext_getElem
    · simp
    · intro m h₁ h₂
      rw [List.length_take, List.length_ofFn] at h₁
      rw [List.getElem_take, List.getElem_take, List.getElem_ofFn, List.getElem_ofFn]
      exact hsame ⟨m, by omega⟩ (Nat.zero_le _) (show m < count by omega)
  unfold startArguments
  rw [htaken, hfork, hfork']
  simp only [ok_bind, hwords]

/-- The characters that were handed on are in the page of the new process. -/
theorem startArguments_reads (dum : Dum) (mem : Bytes) (hpage : OnePage pcb frame)
    (h : (str.rest 0).take (sizeArgBuff - 32) = bs) :
    ∃ r, startArguments pcb str dum mem = .ok r ∧ Reads (readUser pcb r.2) argBase bs := by
  obtain ⟨count, d, hfork, hcount⟩ := forkArguments_ok str dum
  obtain ⟨mem', hstart, hreads, -⟩ := startArguments_ok mem hpage hfork hcount h rfl
  exact ⟨_, hstart, hreads⟩

end Start

/-! ### What is known of it -/

section Known

variable {args : Chars (4 * maxArgs)} {allargs : Chars sizeArgBuff}

theorem nameOf_mapped (name : Chars 100)
    (h : mappedString space 99 (programName args) = some u) : nameOf space args name = u :=
  fetchedString_mapped h (by simp)

theorem argsOf_known (allargs : Chars sizeArgBuff)
    (hlen : bs.length = sizeArgBuff - 32) (h : bs <+: knownText space (argVector args 11 0)) :
    argsOf space args allargs = bs := by
  have hstarts := packedBuffer_starts allargs h (hlen.trans_le (Nat.sub_le ..))
  unfold argsOf
  rw [← hlen]
  exact (List.prefix_iff_eq_take.mp hstarts).symm

theorem length_argsOf : (argsOf space args allargs).length = sizeArgBuff - 32 := by
  simp [argsOf]

/-- A name that is the same whatever the stack held is mapped. -/
theorem mapped_of_same (h : ∀ name, nameOf space args name = u) :
    mappedString space 99 (programName args) = some u := by
  cases hm : mappedString space 99 (programName args) with
  | some v => rw [← h fun _ => 0, nameOf_mapped _ hm]
  | none =>
      have hlt := fetchedString_unmapped ((show Chars 100 from fun _ => 0).rest 0)
        ((show Chars 100 from fun _ => 1).rest 0) hm (by simp) (by simp) (by simp [Chars.rest])
        (by simp [Chars.rest])
      have hsame := (h fun _ => 0).trans (h fun _ => 1).symm
      exact absurd (congrArg List.length hsame) (ne_of_lt hlt)

end Known

theorem Reads.unique {bs' : List Byte} (h : Reads space a bs) (h' : Reads space a bs')
    (hlen : bs.length = bs'.length) : bs = bs' := by
  rw [reads_iff] at h h'
  apply List.ext_getElem hlen
  intro m hm hm'
  exact Option.some.inj ((h m hm).symm.trans (h' m hm'))

end DlxOs.Traps
