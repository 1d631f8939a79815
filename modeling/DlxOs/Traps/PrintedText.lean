import DlxOs.Traps.Scanned
import DlxOs.Traps.WordTraps

/-!
# What a process prints

The text that `printf` gets depends on what the kernel stack held before unless
the format is mapped up to its null character, the argument words that its
conversions take are mapped, and the strings among them keep off the stack.
-/

namespace DlxOs.Traps

open Kernel (Halt PcbPtr ok_bind)
open Memory (Bytes)

variable {σ : Type} {n k m : ℕ} {E : Env σ} {p : PcbPtr} {space : UserSpace}
  {trapArgs a w : Word} {s : Sys σ} {u bs : List Byte} {formatstr : Chars 80}
  {args args' : Chars 40} {l : PrintfArrays}

/-! ### The printed text -/

/-- The first `k` words behind the address of the format. -/
def argumentWords (args : Chars 40) (k : ℕ) : List Word :=
  (List.range k).map fun i => (args.word (i + 1)).toOption.getD 0

/-- What a format prints, with the strings that are in memory. -/
def textOf (μ : Bytes) (u : List Byte) (args : Chars 40) (k : ℕ) : Printed where
  format := u
  words := argumentWords args k
  strings := (stringWords .text 0 u).filterMap fun i => (argumentWords args k)[i]?.map (cString μ)

theorem take_filled {p : Fin 10 → Word} (h : Filled args p k) (hk : k ≤ 10) :
    (List.ofFn p).take k = argumentWords args k := by
  apply List.ext_getElem
  · simp [argumentWords, hk]
  · intro i h₁ h₂
    rw [List.length_take] at h₁
    have hword := h ⟨i, by omega⟩ (by simp only; omega)
    have hget : (argumentWords args k)[i] = (args.word (i + 1)).toOption.getD 0 := by
      simp [argumentWords]
    rw [List.getElem_take, List.getElem_ofFn, hget, hword]
    rfl

theorem printed_eq {printfArgs : Fin 10 → Word} {μ : Bytes} (hs : StringAt formatstr 0 u)
    (hk : argWords .text u = some k) (hle : k ≤ 8) :
    (printfCall formatstr args printfArgs >>= fun call => printed μ call) =
      .ok (textOf μ u args k) := by
  obtain ⟨t, ht, -, hfilled⟩ := scanFormat_takes args 80 (t := ⟨printfArgs, 0, 0⟩) hs
    (by have := hs.le; omega) hk (by simp only; omega) (fun i hi => absurd hi (Nat.not_lt_zero _))
  simp only [Nat.zero_add] at hfilled
  unfold printfCall
  rw [ht]
  simp only [ok_bind]
  change printed μ ⟨formatstr, t⟩ = _
  unfold printed
  simp only [held_of_stringAt hs, hk, if_pos hle, take_filled hfilled (by omega)]
  rfl

/-- What is printed has a finished format of at most eight words. -/
theorem printed_inv {printfArgs : Fin 10 → Word} {μ : Bytes} {o : Printed}
    (hs : StringAt formatstr 0 u)
    (h : (printfCall formatstr args printfArgs >>= fun call => printed μ call) = .ok o) :
    ∃ k, argWords .text u = some k ∧ k ≤ 8 ∧ o = textOf μ u args k := by
  obtain ⟨call, hcall, hprinted⟩ := Kernel.ok_bind_inv h
  have hformat : call.formatstr = formatstr := by
    unfold printfCall at hcall
    obtain ⟨t, -, e⟩ := Kernel.ok_bind_inv hcall
    cases e
    rfl
  unfold printed at hprinted
  rw [hformat, held_of_stringAt hs] at hprinted
  cases hk : argWords .text u with
  | none =>
      rw [hk] at hprinted
      cases hprinted
  | some k =>
      rw [hk] at hprinted
      simp only at hprinted
      split at hprinted
      · rename_i hle
        refine ⟨k, rfl, hle, ?_⟩
        rw [printed_eq hs hk hle] at h
        exact (Except.ok.inj h).symm
      · cases hprinted

/-- The array of the format, after the copy from the process. -/
def formatArray (space : UserSpace) (a : Word) (f : Chars 80) : Chars 80 :=
  Function.update (place f 0 (fetched space a (f.rest 0))) ⟨79, by decide⟩ 0

theorem formatArray_string {f : Chars 80} :
    StringAt (formatArray space a f) 0 (fetchedString space 79 a (f.rest 0)) :=
  stringAt_fetched (by decide)

/-- The argument words of a process, over what their array held. -/
def argsArray (space : UserSpace) (trapArgs : Word) (args : Chars 40) : Chars 40 :=
  place args 0 (readable space trapArgs 40)

theorem trapPrintf_eq (ha : (argsArray space trapArgs l.args).word 0 = .ok a) :
    trapPrintfUser space trapArgs l = printfCall (formatArray space a l.formatstr)
      (argsArray space trapArgs l.args) l.printfArgs := trapPrintfUser_eq ha

/-- The trap prints what the arrays hold after the copies. -/
theorem printf_trap_eq {l : Leftovers}
    (ha : (argsArray space trapArgs l.printf.args).word 0 = .ok a) :
    userTrap E p space trapArgs s l .printf =
      (printfCall (formatArray space a l.printf.formatstr) (argsArray space trapArgs l.printf.args)
          l.printf.printfArgs >>= fun call => printed (E.memory l.stack s) call).map
        fun o => { Outcome.unchanged s with printed := some o } := by
  unfold userTrap
  rw [trapPrintf_eq ha]
  cases printfCall (formatArray space a l.printf.formatstr) (argsArray space trapArgs l.printf.args)
      l.printf.printfArgs with
  | error e => rfl
  | ok call =>
      simp only [ok_bind]
      cases printed (E.memory l.stack s) call <;> rfl

/-! ### Words that are left open -/

section Words

variable {xs ys : Chars n}

/-- The byte at an index, if it was copied there. -/
def byteOr (bs : List Byte) (b : Byte) (j : ℕ) : Byte := bs[j]?.getD b

theorem word_place_eq (h : 4 * k + 3 < n) : Chars.word (place xs 0 bs) k =
    .ok (wordOf (byteOr bs (xs ⟨4 * k, by omega⟩) (4 * k))
      (byteOr bs (xs ⟨4 * k + 1, by omega⟩) (4 * k + 1))
      (byteOr bs (xs ⟨4 * k + 2, by omega⟩) (4 * k + 2))
      (byteOr bs (xs ⟨4 * k + 3, h⟩) (4 * k + 3))) := by
  unfold Chars.word
  rw [Chars.load_eq (show 4 * k < n by omega), ok_bind,
    Chars.load_eq (show 4 * k + 1 < n by omega), ok_bind,
    Chars.load_eq (show 4 * k + 2 < n by omega), ok_bind, Chars.load_eq h, ok_bind]
  rfl

theorem word_place_congr (h : 4 * k + 3 < n) (hb : 4 * k + 3 < bs.length) :
    Chars.word (place xs 0 bs) k = Chars.word (place ys 0 bs) k := by
  rw [word_place_eq h, word_place_eq h]
  have hbyte : ∀ j < 4, ∀ b b', byteOr bs b (4 * k + j) = byteOr bs b' (4 * k + j) := by
    intro j hj b b'
    unfold byteOr
    rw [List.getElem?_eq_getElem (by omega)]
    rfl
  rw [hbyte 1 (by decide) _ (ys ⟨4 * k + 1, by omega⟩),
    hbyte 2 (by decide) _ (ys ⟨4 * k + 2, by omega⟩),
    hbyte 3 (by decide) _ (ys ⟨4 * k + 3, h⟩)]
  have hfirst := hbyte 0 (by decide) (xs ⟨4 * k, by omega⟩) (ys ⟨4 * k, by omega⟩)
  rw [Nat.add_zero] at hfirst
  rw [hfirst]

/-- A byte that was not copied is what the array held. -/
theorem word_place_last {w w' : Word} (h : 4 * k + 3 < n) (hb : bs.length ≤ 4 * k + 3)
    (hw : Chars.word (place xs 0 bs) k = .ok w) (hw' : Chars.word (place ys 0 bs) k = .ok w')
    (hne : xs ⟨4 * k + 3, h⟩ ≠ ys ⟨4 * k + 3, h⟩) : w ≠ w' := by
  rw [word_place_eq h] at hw hw'
  obtain rfl := Except.ok.inj hw
  obtain rfl := Except.ok.inj hw'
  intro e
  have hlast := congrArg (fun w => (bytesOf w)[3]?) e
  simp only [bytesOf_wordOf] at hlast
  have hnone : bs[4 * k + 3]? = none := List.getElem?_eq_none hb
  have := Option.some.inj hlast
  rw [byteOr, byteOr, hnone] at this
  exact hne this

end Words

theorem readable_take (space : UserSpace) (a : Word) (h : m ≤ n) :
    (readable space a n).take m = readable space a m := by
  induction m generalizing a n with
  | zero => rfl
  | succ m ih =>
      obtain ⟨n, rfl⟩ := Nat.exists_eq_add_of_le' (show 1 ≤ n by omega)
      unfold readable
      cases space a with
      | none => rfl
      | some b =>
          simp only
          rw [List.take_succ_cons, ih (a + 1) (by omega)]

theorem byteOr_starts {x y z v : Byte} : bs.take 4 <+:
    [byteOr bs x 0, byteOr bs y 1, byteOr bs z 2, byteOr bs v 3] := by
  match bs with
  | [] => exact List.nil_prefix
  | [a] => exact ⟨[y, z, v], rfl⟩
  | [a, b] => exact ⟨[z, v], rfl⟩
  | [a, b, c] => exact ⟨[v], rfl⟩
  | a :: b :: c :: d :: bs => exact List.prefix_rfl

theorem byteOr_of_starts {cs : List Byte} (h : bs.take 4 <+: cs) {j : ℕ} (hj : j < 4) :
    byteOr bs (cs[j]?.getD 0) j = cs[j]?.getD 0 := by
  unfold byteOr
  rcases Nat.lt_or_ge j bs.length with hlt | hge
  · have hin : j < (bs.take 4).length := by
      rw [List.length_take]
      omega
    have hget := h.getElem hin
    rw [List.getElem_take] at hget
    rw [List.getElem?_eq_getElem hlt, List.getElem?_eq_getElem (hin.trans_le h.length_le), hget]
    rfl
  · rw [List.getElem?_eq_none hge]
    rfl

/-- The first word is one of those that begin with the bytes that are mapped. -/
theorem argsArray_candidate (space : UserSpace) (trapArgs : Word) (args : Chars 40) :
    ∃ w, (argsArray space trapArgs args).word 0 = .ok w ∧ Candidate space trapArgs w := by
  refine ⟨_, word_place_eq (by decide), ?_⟩
  rw [Candidate, bytesOf_wordOf, ← readable_take space trapArgs (show 4 ≤ 40 by decide)]
  exact byteOr_starts

theorem candidate_argsArray (h : Candidate space trapArgs w) :
    (argsArray space trapArgs fun i => (bytesOf w)[i.val]?.getD 0).word 0 = .ok w := by
  have hstarts : (readable space trapArgs 40).take 4 <+: bytesOf w := by
    rw [readable_take space trapArgs (show 4 ≤ 40 by decide)]
    exact h
  rw [argsArray, word_place_eq (by decide)]
  rw [byteOr_of_starts hstarts (by decide), byteOr_of_starts hstarts (by decide),
    byteOr_of_starts hstarts (by decide), byteOr_of_starts hstarts (by decide)]
  exact congrArg Except.ok append_bytesOf

/-! ### Strings off the stack -/

/-- A string that ends, if it does, before it comes to the stack area. -/
def OffStack (E : Env σ) (s : Sys σ) (a : Word) : Prop :=
  ∀ m < maxRounds, (∀ j < m, E.stackArea (a + BitVec.ofNat 32 j) = false ∧
    s.mem (a + BitVec.ofNat 32 j) ≠ 0) → E.stackArea (a + BitVec.ofNat 32 m) = false

theorem takeWhile_congr {xs ys : List Byte} (hlen : xs.length = ys.length)
    (h : ∀ m (hm : m < xs.length), (∀ j (hj : j < m), xs[j] ≠ 0) → xs[m] = ys[m]) :
    xs.takeWhile (· != 0) = ys.takeWhile (· != 0) := by
  induction xs generalizing ys with
  | nil =>
      obtain rfl := List.length_eq_zero_iff.mp hlen.symm
      rfl
  | cons x xs ih =>
      obtain ⟨y, ys, rfl⟩ := List.exists_cons_of_length_pos (show 0 < ys.length by simp [← hlen])
      obtain rfl : x = y := h 0 (by simp) (fun j hj => absurd hj (Nat.not_lt_zero j))
      by_cases hx : x = 0
      · rw [List.takeWhile_cons_of_neg (by simpa using hx),
          List.takeWhile_cons_of_neg (by simpa using hx)]
      · rw [List.takeWhile_cons_of_pos (by simpa using hx),
          List.takeWhile_cons_of_pos (by simpa using hx), ih (by simpa using hlen)]
        intro m hm hj
        refine h (m + 1) (by simpa using hm) fun j hjm => ?_
        cases j with
        | zero => exact hx
        | succ j => exact hj j (by omega)

theorem bytesAt_getElem? {μ : Bytes} (hm : m < n) :
    (bytesAt μ a n)[m]? = some (μ (a + BitVec.ofNat 32 m)) := by
  rw [bytesAt, List.getElem?_ofFn, dif_pos hm]

theorem cString_offStack {stack stack' : Bytes} (h : OffStack E s a) :
    cString (E.memory stack s) a = cString (E.memory stack' s) a := by
  have hget : ∀ stack m (hm : m < (bytesAt (E.memory stack s) a maxRounds).length),
      (bytesAt (E.memory stack s) a maxRounds)[m] = E.memory stack s (a + BitVec.ofNat 32 m) := by
    intro stack m hm
    simp [bytesAt]
  apply takeWhile_congr (by simp)
  intro m hm hbefore
  have hoff : ∀ i ≤ m, E.stackArea (a + BitVec.ofNat 32 i) = false := by
    intro i
    induction i using Nat.strong_induction_on with
    | _ i ih =>
      intro hi
      rw [length_bytesAt] at hm
      apply h i (by omega)
      intro j hj
      have hoff := ih j hj (by omega)
      have hne := hbefore j (by omega)
      rw [hget, Env.memory, hoff] at hne
      exact ⟨hoff, hne⟩
  rw [hget, hget stack', Env.memory, Env.memory, hoff m le_rfl]
  rfl

theorem lt_length_takeWhile {xs : List Byte} (hm : m < xs.length) :
    m < (xs.takeWhile (· != 0)).length ↔ ∀ j ≤ m, xs[j]? ≠ some 0 := by
  induction xs generalizing m with
  | nil => exact absurd hm (Nat.not_lt_zero m)
  | cons x xs ih =>
      by_cases hx : x = 0
      · rw [List.takeWhile_cons_of_neg (by simpa using hx)]
        exact iff_of_false (Nat.not_lt_zero m) fun h => h 0 (Nat.zero_le m) (congrArg some hx)
      · rw [List.takeWhile_cons_of_pos (by simpa using hx), List.length_cons]
        have hfirst : (x :: xs)[0]? ≠ some 0 := fun e => hx (Option.some.inj e)
        cases m with
        | zero =>
            refine iff_of_true (Nat.zero_lt_succ _) fun j hj => ?_
            obtain rfl := Nat.le_zero.mp hj
            exact hfirst
        | succ m =>
            rw [Nat.succ_lt_succ_iff, ih (by simpa using hm)]
            constructor
            · intro h j hj
              cases j with
              | zero => exact hfirst
              | succ j => exact h j (by omega)
            · exact fun h j hj => h (j + 1) (by omega)

theorem lt_length_cString {μ : Bytes} (hm : m < maxRounds) :
    m < (cString μ a).length ↔ ∀ j ≤ m, μ (a + BitVec.ofNat 32 j) ≠ 0 := by
  rw [cString, lt_length_takeWhile (by rwa [length_bytesAt])]
  refine forall₂_congr fun j hj => ?_
  rw [bytesAt_getElem? (hj.trans_lt hm), ne_eq, Option.some.injEq]

/-- A string that reaches the stack area is as long as what was left there makes it. -/
theorem cString_onStack (h : ¬ OffStack E s a) :
    cString (E.memory (fun _ => 0) s) a ≠ cString (E.memory (fun _ => 1) s) a := by
  unfold OffStack at h
  push Not at h
  obtain ⟨m, hm, hbefore, hon⟩ := h
  have hstack : E.stackArea (a + BitVec.ofNat 32 m) = true := by simpa using hon
  have hlong : m < (cString (E.memory (fun _ => 1) s) a).length := by
    rw [lt_length_cString hm]
    intro j hj
    rw [Env.memory]
    rcases lt_or_eq_of_le hj with hlt | rfl
    · rw [(hbefore j hlt).1]
      exact (hbefore j hlt).2
    · rw [hstack]
      change (1 : Byte) ≠ 0
      decide
  intro heq
  rw [← heq, lt_length_cString hm] at hlong
  have hzero := hlong m le_rfl
  rw [Env.memory, hstack] at hzero
  exact hzero rfl

/-! ### What does not depend on the stack -/

/-- The format, its argument words and the strings among them do not come from the stack. -/
def PrintsAlike (E : Env σ) (space : UserSpace) (trapArgs : Word) (s : Sys σ) : Prop :=
  ∃ u k, (∀ w, Candidate space trapArgs w → mappedString space 79 w = some u) ∧
    argWords .text u = some k ∧ k ≤ 8 ∧
    (k = 0 ∨ 4 * (k + 1) ≤ (readable space trapArgs 40).length) ∧
    ∀ i ∈ stringWords .text 0 u, ∀ a,
      (argumentWords (argsArray space trapArgs fun _ => 0) k)[i]? = some a → OffStack E s a

theorem argumentWords_congr (hk : k ≤ 8)
    (h : k = 0 ∨ 4 * (k + 1) ≤ (readable space trapArgs 40).length) :
    argumentWords (argsArray space trapArgs args) k =
      argumentWords (argsArray space trapArgs args') k := by
  unfold argumentWords argsArray
  apply List.map_congr_left
  intro i hi
  have hik := List.mem_range.mp hi
  rw [word_place_congr (by omega) (by omega)]

/-- Words that are not mapped are what the array held. -/
theorem argumentWords_ne (hk : k ≤ 8) (hpos : 0 < k)
    (h : (readable space trapArgs 40).length < 4 * (k + 1)) :
    argumentWords (argsArray space trapArgs fun _ => 0) k ≠
      argumentWords (argsArray space trapArgs fun _ => 1) k := by
  intro heq
  obtain ⟨w, hw⟩ := Chars.word_ok (s := argsArray space trapArgs fun _ => 0) (k := k) (by omega)
  obtain ⟨w', hw'⟩ := Chars.word_ok (s := argsArray space trapArgs fun _ => 1) (k := k) (by omega)
  have hlast := congrArg (fun ws => ws[k - 1]?) heq
  simp only [argumentWords, List.getElem?_map, List.getElem?_range (show k - 1 < k by omega),
    Option.map_some, show k - 1 + 1 = k by omega, hw, hw'] at hlast
  exact word_place_last (by omega) (by omega) hw hw' (by decide) (Option.some.inj hlast)

theorem textOf_congr {μ μ' : Bytes} (hwords : argumentWords args k = argumentWords args' k)
    (h : ∀ i ∈ stringWords .text 0 u, ∀ a, (argumentWords args k)[i]? = some a →
      cString μ a = cString μ' a) : textOf μ u args k = textOf μ' u args' k := by
  have hstrings : ((stringWords .text 0 u).filterMap fun i =>
      (argumentWords args k)[i]?.map (cString μ)) = (stringWords .text 0 u).filterMap fun i =>
        (argumentWords args k)[i]?.map (cString μ') := by
    apply List.filterMap_congr
    intro i hi
    cases ha : (argumentWords args k)[i]? with
    | none => rw [Option.map_none, Option.map_none]
    | some a => exact congrArg some (h i hi a ha)
  rw [textOf, textOf, ← hwords, hstrings]

theorem filterMap_inj {α β : Type*} {g g' : α → Option β} {xs : List α}
    (hsome : ∀ x ∈ xs, (g x).isSome = (g' x).isSome)
    (h : xs.filterMap g = xs.filterMap g') : ∀ x ∈ xs, g x = g' x := by
  induction xs with
  | nil => simp
  | cons x xs ih =>
      have hx := hsome x (List.mem_cons_self ..)
      have hrest : ∀ y ∈ xs, (g y).isSome = (g' y).isSome :=
        fun y hy => hsome y (List.mem_cons_of_mem _ hy)
      cases hg : g x with
      | none =>
          have hg' : g' x = none := by
            rw [hg] at hx
            exact Option.isNone_iff_eq_none.mp (by simpa using hx.symm)
          rw [List.filterMap_cons_none hg, List.filterMap_cons_none hg'] at h
          exact List.forall_mem_cons.mpr ⟨hg.trans hg'.symm, ih hrest h⟩
      | some b =>
          obtain ⟨b', hg'⟩ : ∃ b', g' x = some b' := by
            rw [hg] at hx
            exact Option.isSome_iff_exists.mp hx.symm
          rw [List.filterMap_cons_some hg, List.filterMap_cons_some hg'] at h
          obtain ⟨hb, htail⟩ := List.cons.inj h
          exact List.forall_mem_cons.mpr ⟨by rw [hg, hg', hb], ih hrest htail⟩

/-- The trap succeeds with what a finished format of at most eight words prints. -/
theorem printf_trap_ok {l : Leftovers}
    (ha : (argsArray space trapArgs l.printf.args).word 0 = .ok a)
    (hu : fetchedString space 79 a (l.printf.formatstr.rest 0) = u)
    (hk : argWords .text u = some k) (hle : k ≤ 8) :
    userTrap E p space trapArgs s l .printf = .ok { Outcome.unchanged s with
      printed := some
        (textOf (E.memory l.stack s) u (argsArray space trapArgs l.printf.args) k) } := by
  rw [printf_trap_eq ha, printed_eq (hu ▸ formatArray_string) hk hle]
  rfl

theorem printf_trap_inv {l : Leftovers} {o : Outcome σ}
    (ha : (argsArray space trapArgs l.printf.args).word 0 = .ok a)
    (hu : fetchedString space 79 a (l.printf.formatstr.rest 0) = u)
    (h : userTrap E p space trapArgs s l .printf = .ok o) :
    ∃ k, argWords .text u = some k ∧ k ≤ 8 ∧ o.printed = some
      (textOf (E.memory l.stack s) u (argsArray space trapArgs l.printf.args) k) := by
  rw [printf_trap_eq ha] at h
  cases hp : (printfCall (formatArray space a l.printf.formatstr)
      (argsArray space trapArgs l.printf.args) l.printf.printfArgs >>= fun call =>
        printed (E.memory l.stack s) call) with
  | error e =>
      rw [hp] at h
      cases h
  | ok text =>
      obtain ⟨k, hk, hle, rfl⟩ := printed_inv (hu ▸ formatArray_string) hp
      rw [hp] at h
      cases h
      exact ⟨k, hk, hle, rfl⟩

theorem independent_of_printsAlike (h : PrintsAlike E space trapArgs s) :
    Independent E p space trapArgs s .printf := by
  obtain ⟨u, k, hmapped, hk, hle, hwords, hstrings⟩ := h
  have hrun : ∀ l : Leftovers, userTrap E p space trapArgs s l .printf =
      .ok { Outcome.unchanged s with
        printed := some
          (textOf (E.memory l.stack s) u (argsArray space trapArgs l.printf.args) k) } := by
    intro l
    obtain ⟨w, hw, hc⟩ := argsArray_candidate space trapArgs l.printf.args
    exact printf_trap_ok hw (fetchedString_mapped (hmapped w hc) (by simp)) hk hle
  intro l l'
  refine ⟨⟨_, hrun l⟩, ?_⟩
  rw [hrun l, hrun l', textOf_congr (argumentWords_congr hle hwords) fun i hi a ha => ?_]
  apply cString_offStack
  apply hstrings i hi a
  rw [← ha, argumentWords_congr hle hwords]

/-- Leftovers with this argument array, and the same byte throughout the format and the stack. -/
def leftWith (args : Chars 40) (b stack : Byte) : Leftovers :=
  { Leftovers.zero with printf := ⟨fun _ => b, fun _ => 0, args⟩, stack := fun _ => stack }

/-- Two runs that print the same have the same format, words and strings. -/
theorem printed_alike (l l' : Leftovers) {a a' : Word} {u' : List Byte}
    (h : Independent E p space trapArgs s .printf)
    (ha : (argsArray space trapArgs l.printf.args).word 0 = .ok a)
    (ha' : (argsArray space trapArgs l'.printf.args).word 0 = .ok a')
    (hu : fetchedString space 79 a (l.printf.formatstr.rest 0) = u)
    (hu' : fetchedString space 79 a' (l'.printf.formatstr.rest 0) = u') :
    u = u' ∧ ∃ k, argWords .text u = some k ∧ k ≤ 8 ∧
      textOf (E.memory l.stack s) u (argsArray space trapArgs l.printf.args) k =
        textOf (E.memory l'.stack s) u (argsArray space trapArgs l'.printf.args) k := by
  obtain ⟨⟨o, ho⟩, heq⟩ := h l l'
  obtain ⟨k, hk, hle, htext⟩ := printf_trap_inv ha hu ho
  obtain ⟨k', hk', -, htext'⟩ := printf_trap_inv ha' hu' (heq ▸ ho)
  have hsame := Option.some.inj (htext.symm.trans htext')
  obtain rfl : u = u' := congrArg Printed.format hsame
  obtain rfl : k = k' := Option.some.inj (hk.symm.trans hk')
  exact ⟨rfl, k, hk, hle, hsame⟩

theorem mapped_of_independent (h : Independent E p space trapArgs s .printf)
    (hw : Candidate space trapArgs w) : ∃ u, mappedString space 79 w = some u := by
  rw [← Option.ne_none_iff_exists']
  intro hnone
  have hword := candidate_argsArray hw
  have hsame := (printed_alike (leftWith _ 0 0) (leftWith _ 1 0) h hword hword rfl rfl).1
  have hlt := fetchedString_unmapped ((show Chars 80 from fun _ => 0).rest 0)
    ((show Chars 80 from fun _ => 1).rest 0) hnone (by simp) (by simp) (by simp [Chars.rest])
    (by simp [Chars.rest])
  exact absurd (congrArg List.length hsame) (ne_of_lt hlt)

theorem printsAlike_of_independent (h : Independent E p space trapArgs s .printf) :
    PrintsAlike E space trapArgs s := by
  have hmapped : ∀ {w}, Candidate space trapArgs w → ∃ u, mappedString space 79 w = some u :=
    fun hw => mapped_of_independent h hw
  have hfetched : ∀ {w u} (args : Chars 40) (b : Byte), mappedString space 79 w = some u →
      fetchedString space 79 w ((leftWith args b 0).printf.formatstr.rest 0) = u :=
    fun args b hm => fetchedString_mapped hm (by simp)
  obtain ⟨w₀, hw₀, hc₀⟩ := argsArray_candidate space trapArgs fun _ => 0
  obtain ⟨u, hu⟩ := hmapped hc₀
  have hall : ∀ w, Candidate space trapArgs w → mappedString space 79 w = some u := by
    intro w hw
    obtain ⟨v, hv⟩ := hmapped hw
    have hsame := (printed_alike (leftWith _ 0 0) (leftWith _ 0 0) h
      (candidate_argsArray hw) hw₀ (hfetched _ 0 hv) (hfetched _ 0 hu)).1
    rw [hv, hsame]
  have hlike : ∀ (args args' : Chars 40) (b b' : Byte), ∃ k, argWords .text u = some k ∧ k ≤ 8 ∧
      textOf (E.memory (fun _ => b) s) u (argsArray space trapArgs args) k =
        textOf (E.memory (fun _ => b') s) u (argsArray space trapArgs args') k := by
    intro args args' b b'
    obtain ⟨w, hw, hc⟩ := argsArray_candidate space trapArgs args
    obtain ⟨w', hw', hc'⟩ := argsArray_candidate space trapArgs args'
    exact (printed_alike (leftWith args 0 b) (leftWith args' 0 b') h hw hw'
      (hfetched _ 0 (hall w hc)) (hfetched _ 0 (hall w' hc'))).2
  obtain ⟨k, hk, hle, hwords⟩ := hlike (fun _ => 0) (fun _ => 1) 0 0
  refine ⟨u, k, hall, hk, hle, ?_, ?_⟩
  · by_contra hn
    push Not at hn
    exact argumentWords_ne hle (Nat.pos_of_ne_zero hn.1) hn.2 (congrArg Printed.words hwords)
  · intro i hi a ha
    by_contra hon
    obtain ⟨k', hk', -, hstrings⟩ := hlike (fun _ => 0) (fun _ => 0) 0 1
    obtain rfl : k = k' := Option.some.inj (hk.symm.trans hk')
    have hsame := filterMap_inj (fun j _ => by simp only [Option.isSome_map])
      (congrArg Printed.strings hstrings) i hi
    rw [ha] at hsame
    exact cString_onStack hon (Option.some.inj hsame)

theorem printf_independent_iff :
    Independent E p space trapArgs s .printf ↔ PrintsAlike E space trapArgs s :=
  ⟨printsAlike_of_independent, independent_of_printsAlike⟩

end DlxOs.Traps
