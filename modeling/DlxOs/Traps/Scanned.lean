import DlxOs.Traps.Format

/-!
# What the scan of a format finds

A format that is mapped up to its null character is fetched as it is; from the
first address that is not mapped, what the array held decides how it goes on.
The scan puts the words that the conversions take behind each other.
-/

namespace DlxOs.Traps

open Kernel (Halt ok_bind)

variable {n k : ℕ} {space : UserSpace} {a : Word} {u old : List Byte} {f : Chars 80}

/-! ### The format -/

/-- The string at an address up to its null character, cut after `n` characters, if it is mapped. -/
def mappedString (space : UserSpace) : ℕ → Word → Option (List Byte)
  | 0, _ => some []
  | n + 1, a =>
    match space a with
    | none => none
    | some b => if b = 0 then some [] else (mappedString space n (a + 1)).map (b :: ·)

/-- What is fetched, up to the null character. -/
def fetchedString (space : UserSpace) (n : ℕ) (a : Word) (old : List Byte) : List Byte :=
  ((fetched space a old).takeWhile (· != 0)).take n

theorem fetchedString_cons {b c : Byte} (hc : (space a).getD b = c) :
    fetchedString space (n + 1) a (b :: old) =
      if c = 0 then [] else c :: fetchedString space n (a + 1) old := by
  unfold fetchedString
  rw [fetched, hc]
  by_cases hz : c = 0
  · rw [if_pos hz, hz]
    rfl
  · rw [if_neg hz, if_pos hz, List.takeWhile_cons_of_pos (by simpa using hz), List.take_succ_cons]

/-- A string that is mapped is fetched whatever the array held. -/
theorem fetchedString_mapped (h : mappedString space n a = some u) (hn : n ≤ old.length) :
    fetchedString space n a old = u := by
  induction n generalizing a old u with
  | zero =>
      cases h
      rfl
  | succ n ih =>
      obtain ⟨b, old, rfl⟩ := List.exists_cons_of_length_pos (show 0 < old.length by omega)
      unfold mappedString at h
      cases hs : space a with
      | none =>
          rw [hs] at h
          cases h
      | some c =>
          rw [hs] at h
          simp only at h
          rw [fetchedString_cons (c := c) (by rw [hs]; rfl)]
          by_cases hc : c = 0
          · rw [if_pos hc] at h ⊢
            exact Option.some.inj h
          · rw [if_neg hc] at h ⊢
            obtain ⟨v, hv, rfl⟩ := Option.map_eq_some_iff.mp h
            rw [ih hv (by simpa using hn)]

/-- Where a string is not mapped, what the array held decides how it goes on. -/
theorem fetchedString_unmapped (old old' : List Byte) (h : mappedString space n a = none)
    (hn : n ≤ old.length) (hn' : n ≤ old'.length) (hz : ∀ b ∈ old, b = 0)
    (hne : ∀ b ∈ old', b ≠ 0) :
    (fetchedString space n a old).length < (fetchedString space n a old').length := by
  induction n generalizing a old old' with
  | zero => cases h
  | succ n ih =>
      obtain ⟨b, old, rfl⟩ := List.exists_cons_of_length_pos (show 0 < old.length by omega)
      obtain ⟨b', old', rfl⟩ := List.exists_cons_of_length_pos (show 0 < old'.length by omega)
      unfold mappedString at h
      cases hs : space a with
      | none =>
          have hb : b = 0 := hz b (List.mem_cons_self ..)
          have hb' : b' ≠ 0 := hne b' (List.mem_cons_self ..)
          rw [fetchedString_cons (c := b) (by rw [hs]; rfl), if_pos hb,
            fetchedString_cons (c := b') (by rw [hs]; rfl), if_neg hb']
          exact Nat.zero_lt_succ _
      | some c =>
          rw [hs] at h
          simp only at h
          rw [fetchedString_cons (c := c) (by rw [hs]; rfl),
            fetchedString_cons (c := c) (by rw [hs]; rfl)]
          by_cases hc : c = 0
          · rw [if_pos hc] at h
            cases h
          · rw [if_neg hc] at h ⊢
            rw [if_neg hc, List.length_cons, List.length_cons]
            apply Nat.succ_lt_succ
            apply ih old old' (Option.map_eq_none_iff.mp h) (by simpa using hn) (by simpa using hn')
            · exact fun c hc => hz c (List.mem_cons_of_mem _ hc)
            · exact fun c hc => hne c (List.mem_cons_of_mem _ hc)

/-- The string in an array after the copy from the process. -/
theorem stringAt_fetched {f : Chars n} (h : n - 1 < n) :
    StringAt (Function.update (place f 0 (fetched space a (f.rest 0))) ⟨n - 1, h⟩ 0) 0
      (fetchedString space (n - 1) a (f.rest 0)) := by
  obtain ⟨v, hv, e⟩ := exists_fetched space a (f.rest 0)
  rw [Chars.length_rest, Nat.sub_zero] at e
  have hstring : fetchedString space (n - 1) a (f.rest 0) = v.take (n - 1) := by
    have hwhile : ((v ++ [0]).take n).takeWhile (· != 0) = v.take n := by
      rw [List.take_append, List.takeWhile_append_of_pos]
      · cases n - v.length <;> simp
      · exact fun b hb => by simpa using hv b (List.mem_of_mem_take hb)
    rw [fetchedString, e, hwhile, List.take_take, min_eq_left (Nat.sub_le ..)]
  rw [hstring, e]
  exact stringAt_cut hv h

theorem held_of_stringAt {s : Chars n} (h : StringAt s 0 u) : s.held = u := by
  have hlen := h.le
  have hlast : n - 1 < n := by omega
  apply (Chars.stringAt_held hlast).unique
  apply h.congr
  intro k hk
  have hin : k < n := by omega
  rw [Chars.load_eq hin, Chars.load_eq hin]
  congr 1
  rcases lt_or_eq_of_le (show k ≤ n - 1 by omega) with hlt | rfl
  · exact Function.update_of_ne (Fin.ne_of_lt hlt) ..
  · have hend := h.load (m := n - 1) (by simp; omega)
    rw [Nat.zero_add, Chars.load_eq hin, List.getElem_append_right (by omega)] at hend
    rw [Function.update_self, Except.ok.inj hend]
    simp

/-! ### The argument words -/

variable {c rounds rounds' : ℕ} {formatstr : Chars 80} {args : Chars 40} {t : Scan}

/-- The first `n` arguments of `printf` are the words behind the address of the format. -/
def Filled (args : Chars 40) (printfArgs : Fin 10 → Word) (n : ℕ) : Prop :=
  ∀ i : Fin 10, i.val < n → args.word (i.val + 1) = .ok (printfArgs i)

theorem Scan.take_filled (h : t.nargs ≤ 8) (ht : Filled args t.printfArgs t.nargs) :
    ∃ p, t.take args = .ok { t with printfArgs := p } ∧ Filled args p (t.nargs + 1) := by
  obtain ⟨w, hw⟩ := Chars.word_ok (s := args) (k := t.nargs + 1) (by omega)
  refine ⟨Function.update t.printfArgs ⟨t.nargs, by omega⟩ w, ?_, fun i hi => ?_⟩
  · unfold Scan.take
    rw [hw, ok_bind, dif_pos (by omega)]
    rfl
  · rcases eq_or_ne i ⟨t.nargs, by omega⟩ with heq | hne
    · rw [heq, Function.update_self]
      exact hw
    · have hlt : i.val < t.nargs := by
        have : i.val ≠ t.nargs := fun e => hne (Fin.ext e)
        omega
      rw [Function.update_of_ne hne, ht i hlt]

/-- The scan ends with `k` arguments more. -/
def Takes (args : Chars 40) (n : ℕ) (r : Except Halt Scan) : Prop :=
  ∃ t, r = .ok t ∧ t.nargs = n ∧ Filled args t.printfArgs n

theorem scanInside_takes
    (outer : ∀ v : List Byte, v.length < u.length → ∀ c t rounds k, StringAt formatstr c v →
      v.length < rounds → argWords .text v = some k → t.nargs + k ≤ 9 →
      Filled args t.printfArgs t.nargs →
      Takes args (t.nargs + k) (scanFormat formatstr args rounds c t))
    (hs : StringAt formatstr (c + 1) u) (hr : u.length < rounds) (hr' : u.length ≤ rounds')
    (hk : argWords .conversion u = some k) (hn : t.nargs + k ≤ 9)
    (ht : Filled args t.printfArgs (t.nargs + 1)) :
    Takes args (t.nargs + k) (scanInside formatstr args rounds rounds' c t) := by
  induction u generalizing c t rounds with
  | nil => cases hk
  | cons b u ih =>
      obtain ⟨hload, -, hu⟩ := hs
      obtain ⟨rounds, rfl⟩ := Nat.exists_eq_succ_of_ne_zero (Nat.ne_of_gt (Nat.zero_lt_of_lt hr))
      simp only [List.length_cons] at hr hr' outer
      by_cases hends : ends b = true
      · rw [argWords_ends hends] at hk
        rw [scanInside_step hload]
        obtain ⟨j, hj, rfl⟩ := Option.map_eq_some_iff.mp hk
        cases hfloat : float b with
        | false =>
            simp only [hends, hfloat, Bool.false_eq_true, if_true, if_false] at hn ⊢
            rw [← Nat.add_assoc]
            exact outer u (Nat.lt_succ_self _) _ _ _ _ hu (by omega) hj (by simp only; omega) ht
        | true =>
            simp only [hends, hfloat, if_true] at hn ⊢
            have hle : t.nargs + 1 ≤ 8 := by omega
            obtain ⟨p, hp, hfilled⟩ := Scan.take_filled (t := { t with
              furthest := max t.furthest (c + 1), nargs := t.nargs + 1 }) hle ht
            simp only [hp, ok_bind]
            rw [← Nat.add_assoc]
            exact outer u (Nat.lt_succ_self _) _ _ _ _ hu (by omega) hj (by simp only; omega)
              hfilled
      · rw [argWords_open hends] at hk
        rw [scanInside_step hload]
        simp only [hends]
        exact ih (fun v hv => outer v (by omega)) hu (by omega) (by omega) hk hn ht

/-- The scan takes as many words as the conversions of the format ask for. -/
theorem scanFormat_takes (args : Chars 40) (rounds : ℕ) (hs : StringAt formatstr c u)
    (hr : u.length < rounds) (hk : argWords .text u = some k) (hn : t.nargs + k ≤ 9)
    (ht : Filled args t.printfArgs t.nargs) :
    Takes args (t.nargs + k) (scanFormat formatstr args rounds c t) := by
  induction hm : u.length using Nat.strong_induction_on generalizing u c t rounds k with
  | _ m ih =>
      subst hm
      obtain ⟨rounds, rfl⟩ := Nat.exists_eq_succ_of_ne_zero (Nat.ne_of_gt (Nat.zero_lt_of_lt hr))
      cases u with
      | nil =>
          have hload : formatstr.load c = .ok 0 := hs
          obtain rfl : 0 = k := Option.some.inj hk
          rw [scanFormat_step hload]
          exact ⟨_, rfl, rfl, ht⟩
      | cons b u =>
          obtain ⟨hload, hb, hu⟩ := hs
          simp only [List.length_cons] at hr ih
          rw [scanFormat_step hload]
          simp only
          rw [if_neg hb]
          by_cases hp : b = ascii '%'
          · rw [if_pos hp]
            rw [argWords_start hp] at hk
            by_cases hdouble : ∃ v, u = ascii '%' :: v
            · obtain ⟨v, rfl⟩ := hdouble
              simp only [List.length_cons] at hr ih
              rw [Scan.read_eq hu.1, ok_bind, if_pos rfl]
              rw [argWords_double] at hk
              exact ih v.length (by omega) _ hu.2.2 (by omega) hk hn ht rfl
            · rw [argWords_percent (not_exists.mp hdouble)] at hk
              have hpos := argWords_conversion_pos hk
              obtain ⟨b', hread, hne⟩ := exists_single hu (not_exists.mp hdouble)
              rw [Scan.read_eq hread, ok_bind, if_neg hne]
              obtain ⟨p, htake, hfilled⟩ := Scan.take_filled (t := { t with
                furthest := max (max t.furthest c) (c + 1) }) (by simp only; omega) ht
              have hlt := hu.le
              rw [htake, ok_bind]
              refine scanInside_takes ?_ hu (by omega) (by omega) hk (by simp only; omega) hfilled
              intro v hv c t rounds k hs hr hk hn ht
              exact ih v.length (by omega) _ hs hr hk hn ht rfl
          · rw [if_neg hp]
            rw [argWords_text hp] at hk
            exact ih _ (Nat.lt_succ_self _) _ hu (by omega) hk hn ht rfl

end DlxOs.Traps
