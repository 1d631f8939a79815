import DlxOs.Traps.Strings

/-!
# The scan of a format

The scan of `TrapPrintfHandler` stays inside the format and its two arrays as
long as every conversion of the format is finished and the conversions take at
most nine arguments. A conversion that is not finished is sought behind the end
of the format, and nothing counts the arguments.
-/

namespace DlxOs.Traps

open Kernel (Halt)
open Kernel (ok_bind)

variable {c len rounds rounds' : ℕ} {b : Byte} {u : List Byte} {formatstr : Chars 80}
  {args : Chars 40} {t t' : Scan} {space : UserSpace} {trapArgs a : Word} {l : PrintfArrays}

/-- The letters that end a conversion. -/
def ends (b : Byte) : Bool := ascii 'a' ≤ b && b ≤ ascii 'z' && b != ascii 'l'

/-- A floating-point number takes two words. -/
def float (b : Byte) : Bool := b == ascii 'f' || b == ascii 'g' || b == ascii 'e'

/-- Where a character of a format stands. -/
inductive Place
  | text
  | percent
  | conversion

/-- The number of argument words that a format takes, if all its conversions are finished. -/
def argWords : Place → List Byte → Option ℕ
  | .text, [] => some 0
  | _, [] => none
  | .text, b :: u => argWords (if b = ascii '%' then .percent else .text) u
  | .percent, b :: u =>
    if b = ascii '%' then argWords .text u
    else if ends b then (argWords .text u).map ((if float b then 2 else 1) + ·)
    else argWords .conversion u
  | .conversion, b :: u =>
    if ends b then (argWords .text u).map ((if float b then 2 else 1) + ·)
    else argWords .conversion u

/-- The format asks for at most nine argument words. -/
def WellFormed (u : List Byte) : Prop := ∃ k, argWords .text u = some k ∧ k ≤ 9

/-- The scan ends without an access outside the arrays, and reads no character behind `len`. -/
def Within (len : ℕ) (r : Except Halt Scan) : Prop := ∃ t, r = .ok t ∧ t.furthest ≤ len

theorem Scan.read_eq (h : formatstr.load c = .ok b) :
    t.read formatstr c = .ok (b, { t with furthest := max t.furthest c }) := by
  unfold Scan.read
  rw [h]
  rfl

/-- There are nine words behind the format. -/
theorem Scan.take_cases (t : Scan) (args : Chars 40) :
    (t.nargs ≤ 8 ∧ ∃ p, t.take args = .ok { t with printfArgs := p }) ∨
      (8 < t.nargs ∧ t.take args = .error .wildAccess) := by
  unfold Scan.take
  rcases le_or_gt t.nargs 8 with h | h
  · obtain ⟨w, hw⟩ := Chars.word_ok (s := args) (k := t.nargs + 1) (by omega)
    rw [hw, ok_bind, dif_pos (by omega)]
    exact .inl ⟨h, _, rfl⟩
  · rw [Chars.word_error (by omega)]
    exact .inr ⟨h, rfl⟩

theorem Scan.read_error {e : Halt} (h : formatstr.load c = .error e) :
    t.read formatstr c = .error e := by
  unfold Scan.read
  rw [h]
  rfl

/-- A character of the inner loop. -/
theorem scanConversion_step (h : formatstr.load (c + 1) = .ok b) :
    scanConversion formatstr args (rounds + 1) c t =
      let t' := { t with furthest := max t.furthest (c + 1) }
      if ends b then
        if float b then do return (c + 1, ← { t' with nargs := t.nargs + 1 }.take args)
        else .ok (c + 1, t')
      else scanConversion formatstr args rounds (c + 1) t' := by
  conv_lhs => unfold scanConversion
  simp only [Scan.read_eq h, ok_bind]
  by_cases hs : b = ascii 's'
  · subst hs
    rfl
  rw [if_neg hs]
  by_cases hl : b = ascii 'l'
  · subst hl
    rfl
  rw [if_neg hl]
  by_cases hf : b = ascii 'f' ∨ b = ascii 'g' ∨ b = ascii 'e'
  · rw [if_pos hf]
    rcases hf with rfl | rfl | rfl <;> rfl
  · have hends : ends b = true ↔ ascii 'a' ≤ b ∧ b ≤ ascii 'z' := by
      simp [ends, hl]
    have hfloat : float b = false := by
      simpa [float, not_or, and_assoc] using hf
    rw [if_neg hf, hfloat]
    by_cases ha : ascii 'a' ≤ b ∧ b ≤ ascii 'z'
    · rw [if_pos ha, if_pos (hends.mpr ha)]
      rfl
    · rw [if_neg ha, if_neg (mt hends.mp ha)]

/-- The inner loop goes on to a later character, and has read it. -/
theorem scanConversion_ge {c' : ℕ} (h : scanConversion formatstr args rounds c t = .ok (c', t')) :
    c < c' ∧ c' ≤ t'.furthest ∧ t.furthest ≤ t'.furthest := by
  induction rounds generalizing c t with
  | zero => cases h
  | succ rounds ih =>
      cases hb : formatstr.load (c + 1) with
      | error e =>
          unfold scanConversion at h
          simp only [Scan.read_error hb] at h
          cases h
      | ok b =>
          rw [scanConversion_step hb] at h
          simp only at h
          split at h
          · split at h
            · rcases Scan.take_cases
                { t with furthest := max t.furthest (c + 1), nargs := t.nargs + 1 } args with
                ⟨-, p, hp⟩ | ⟨-, he⟩
              · rw [hp, ok_bind] at h
                cases h
                exact ⟨Nat.lt_succ_self c, le_max_right _ _, le_max_left _ _⟩
              · rw [he] at h
                cases h
            · cases h
              exact ⟨Nat.lt_succ_self c, le_max_right _ _, le_max_left _ _⟩
          · obtain ⟨hc, hf, ht⟩ := ih h
            exact ⟨by omega, hf, (le_max_left _ _).trans ht⟩

/-- The rest of a scan inside a conversion. -/
def scanInside (formatstr : Chars 80) (args : Chars 40) (rounds rounds' c : ℕ) (t : Scan) :
    Except Halt Scan := do
  let (c, t) ← scanConversion formatstr args rounds c t
  scanFormat formatstr args rounds' (c + 1) { t with nargs := t.nargs + 1 }

/-- A character of the outer loop. -/
theorem scanFormat_step (h : formatstr.load c = .ok b) :
    scanFormat formatstr args (rounds + 1) c t =
      let t' := { t with furthest := max t.furthest c }
      if b = 0 then .ok t'
      else if b = ascii '%' then
        t'.read formatstr (c + 1) >>= fun r =>
          if r.1 = ascii '%' then scanFormat formatstr args rounds (c + 2) r.2
          else r.2.take args >>= fun t => scanInside formatstr args 80 rounds c t
      else scanFormat formatstr args rounds (c + 1) t' := by
  conv_lhs => unfold scanFormat
  simp only [Scan.read_eq h, ok_bind]
  rfl

/-- A character inside a conversion. -/
theorem scanInside_step (h : formatstr.load (c + 1) = .ok b) :
    scanInside formatstr args (rounds + 1) rounds' c t =
      let t' := { t with furthest := max t.furthest (c + 1) }
      if ends b then
        if float b then
          { t' with nargs := t.nargs + 1 }.take args >>= fun t =>
            scanFormat formatstr args rounds' (c + 1 + 1) { t with nargs := t.nargs + 1 }
        else scanFormat formatstr args rounds' (c + 1 + 1) { t' with nargs := t.nargs + 1 }
      else scanInside formatstr args rounds rounds' (c + 1) t' := by
  unfold scanInside
  rw [scanConversion_step h]
  simp only
  split
  · split
    · cases Scan.take { t with furthest := max t.furthest (c + 1), nargs := t.nargs + 1 } args with
      | error e => rfl
      | ok t => rfl
    · rfl
  · rfl

theorem scanFormat_ge (h : scanFormat formatstr args rounds c t = .ok t') :
    t.furthest ≤ t'.furthest := by
  induction rounds generalizing c t with
  | zero => cases h
  | succ rounds ih =>
      cases hb : formatstr.load c with
      | error e =>
          unfold scanFormat at h
          simp only [Scan.read_error hb] at h
          cases h
      | ok b =>
          rw [scanFormat_step hb] at h
          simp only at h
          split at h
          · cases h
            exact le_max_left _ _
          · split at h
            · cases hb' : formatstr.load (c + 1) with
              | error e =>
                  rw [Scan.read_error hb'] at h
                  cases h
              | ok b' =>
                  rw [Scan.read_eq hb', ok_bind] at h
                  simp only at h
                  split at h
                  · exact (le_max_left _ _).trans ((le_max_left _ _).trans (ih h))
                  · rcases Scan.take_cases { t with
                      furthest := max (max t.furthest c) (c + 1) } args with ⟨-, p, hp⟩ | ⟨-, he⟩
                    · rw [hp, ok_bind] at h
                      unfold scanInside at h
                      cases hc : scanConversion formatstr args 80 c { t with
                          printfArgs := p, furthest := max (max t.furthest c) (c + 1) } with
                      | error e =>
                          rw [hc] at h
                          cases h
                      | ok r =>
                          rw [hc, ok_bind] at h
                          have hge := (scanConversion_ge hc).2.2
                          have hlast := ih h
                          exact (le_max_left _ _).trans ((le_max_left _ _).trans
                            (hge.trans hlast))
                    · rw [he] at h
                      cases h
            · exact (le_max_left _ _).trans (ih h)

theorem scanInside_ge (h : scanInside formatstr args rounds rounds' c t = .ok t') :
    c + 1 ≤ t'.furthest := by
  unfold scanInside at h
  cases hc : scanConversion formatstr args rounds c t with
  | error e =>
      rw [hc] at h
      cases h
  | ok r =>
      rw [hc, ok_bind] at h
      obtain ⟨hlt, hle, -⟩ := scanConversion_ge hc
      have hlast := scanFormat_ge h
      exact (show c + 1 ≤ r.1 from hlt).trans (hle.trans hlast)

theorem not_within_error {e : Halt} : ¬ Within len (.error e) := fun ⟨_, h, _⟩ => by cases h

theorem argWords_ends (h : ends b = true) : argWords .conversion (b :: u) =
    (argWords .text u).map ((if float b then 2 else 1) + ·) := if_pos h

theorem argWords_open (h : ¬ ends b = true) :
    argWords .conversion (b :: u) = argWords .conversion u := if_neg h

theorem argWords_start (h : b = ascii '%') :
    argWords .text (b :: u) = argWords .percent u := by
  conv_lhs => unfold argWords
  rw [if_pos h]

theorem argWords_text (h : b ≠ ascii '%') : argWords .text (b :: u) = argWords .text u := by
  conv_lhs => unfold argWords
  rw [if_neg h]

theorem argWords_double : argWords .percent (ascii '%' :: u) = argWords .text u := if_pos rfl

/-- What comes behind a `%` that is not doubled. -/
theorem exists_single (hs : StringAt formatstr c u) (h : ∀ v, u ≠ ascii '%' :: v) :
    ∃ b, formatstr.load c = .ok b ∧ b ≠ ascii '%' := by
  cases u with
  | nil => exact ⟨0, hs, by decide⟩
  | cons b v => exact ⟨b, hs.1, fun e => h v (by rw [e])⟩

/-- What comes behind a `%` that is not doubled is the inside of a conversion. -/
theorem argWords_percent (h : ∀ v, u ≠ ascii '%' :: v) :
    argWords .percent u = argWords .conversion u := by
  cases u with
  | nil => rfl
  | cons b u =>
      have hb : b ≠ ascii '%' := fun e => h u (by rw [e])
      unfold argWords
      rw [if_neg hb]

/-- A conversion needs an argument. -/
theorem argWords_conversion_pos {k : ℕ} (h : argWords .conversion u = some k) : 0 < k := by
  induction u with
  | nil => cases h
  | cons b u ih =>
      unfold argWords at h
      split at h
      · obtain ⟨j, -, rfl⟩ := Option.map_eq_some_iff.mp h
        split <;> omega
      · exact ih h

/-- The inner loop over the rest of the format, when the outer one is right about less. -/
theorem scanInside_within
    (outer : ∀ v : List Byte, v.length < u.length → ∀ c t rounds, StringAt formatstr c v →
      t.furthest ≤ c + v.length → v.length < rounds → t.nargs ≤ 9 →
      (Within (c + v.length) (scanFormat formatstr args rounds c t) ↔
        ∃ k, argWords .text v = some k ∧ t.nargs + k ≤ 9))
    (hs : StringAt formatstr (c + 1) u) (hf : t.furthest ≤ c + 1 + u.length)
    (hr : u.length < rounds) (hr' : u.length ≤ rounds') (hn : t.nargs + 1 ≤ 9) :
    Within (c + 1 + u.length) (scanInside formatstr args rounds rounds' c t) ↔
      ∃ k, argWords .conversion u = some k ∧ t.nargs + k ≤ 9 := by
  induction u generalizing c t rounds with
  | nil =>
      -- the null character ends no conversion, and the search goes on behind it
      refine iff_of_false ?_ (fun ⟨k, hk, _⟩ => by cases hk)
      obtain ⟨rounds, rfl⟩ := Nat.exists_eq_succ_of_ne_zero (Nat.ne_of_gt hr)
      rintro ⟨r, e, hle⟩
      rw [scanInside_step hs] at e
      have hlast := scanInside_ge e
      simp only [List.length_nil] at hle
      omega
  | cons b u ih =>
      obtain ⟨hload, -, hu⟩ := hs
      obtain ⟨rounds, rfl⟩ := Nat.exists_eq_succ_of_ne_zero (Nat.ne_of_gt (Nat.zero_lt_of_lt hr))
      simp only [List.length_cons] at hf hr hr' outer ⊢
      have hlen : c + 1 + (u.length + 1) = c + 1 + 1 + u.length := by omega
      rw [hlen] at hf ⊢
      have hf' : max t.furthest (c + 1) ≤ c + 1 + 1 + u.length := max_le hf (by omega)
      by_cases hends : ends b = true
      · rw [argWords_ends hends, scanInside_step hload]
        cases hfloat : float b with
        | false =>
            simp only [hends, if_true, Bool.false_eq_true, if_false]
            rw [outer u (Nat.lt_succ_self _) _ _ _ hu hf' (by omega) hn]
            constructor
            · rintro ⟨k, hk, hle⟩
              exact ⟨1 + k, by simp [hk], by simp only at hle; omega⟩
            · rintro ⟨k, hk, hle⟩
              obtain ⟨j, hj, rfl⟩ := Option.map_eq_some_iff.mp hk
              exact ⟨j, hj, by simp only; omega⟩
        | true =>
            rcases Scan.take_cases
              { t with furthest := max t.furthest (c + 1), nargs := t.nargs + 1 } args with
              ⟨hle, p, hp⟩ | ⟨hgt, he⟩
            · simp only [hends, if_true, hp, ok_bind]
              simp only at hle
              rw [outer u (Nat.lt_succ_self _) _ _ _ hu hf' (by omega) (by simp only; omega)]
              constructor
              · rintro ⟨k, hk, hle⟩
                exact ⟨2 + k, by simp [hk], by simp only at hle; omega⟩
              · rintro ⟨k, hk, hle⟩
                obtain ⟨j, hj, rfl⟩ := Option.map_eq_some_iff.mp hk
                exact ⟨j, hj, by simp only; omega⟩
            · simp only [hends, if_true, he]
              simp only at hgt
              refine iff_of_false not_within_error ?_
              rintro ⟨k, hk, hle⟩
              obtain ⟨j, -, rfl⟩ := Option.map_eq_some_iff.mp hk
              omega
      · rw [argWords_open hends, scanInside_step hload]
        simp only [hends]
        exact ih (fun v hv => outer v (by omega)) hu hf' (by omega) (by omega) hn

/-- The scan from a place in the text of a format on. -/
theorem scanFormat_within (args : Chars 40) (rounds : ℕ) (hs : StringAt formatstr c u)
    (hf : t.furthest ≤ c + u.length)
    (hr : u.length < rounds) (hn : t.nargs ≤ 9) :
    Within (c + u.length) (scanFormat formatstr args rounds c t) ↔
      ∃ k, argWords .text u = some k ∧ t.nargs + k ≤ 9 := by
  induction hm : u.length using Nat.strong_induction_on generalizing u c t rounds with
  | _ m ih =>
      subst hm
      obtain ⟨rounds, rfl⟩ := Nat.exists_eq_succ_of_ne_zero (Nat.ne_of_gt (Nat.zero_lt_of_lt hr))
      cases u with
      | nil =>
          have hload : formatstr.load c = .ok 0 := hs
          rw [scanFormat_step hload]
          refine iff_of_true ⟨_, rfl, ?_⟩ ⟨0, rfl, hn⟩
          exact max_le hf le_rfl
      | cons b u =>
          obtain ⟨hload, hb, hu⟩ := hs
          simp only [List.length_cons] at hf hr ih ⊢
          have hlen : c + (u.length + 1) = c + 1 + u.length := by omega
          rw [hlen] at hf ⊢
          have hf' : max t.furthest c ≤ c + 1 + u.length := max_le hf (by omega)
          rw [scanFormat_step hload]
          simp only
          rw [if_neg hb]
          by_cases hp : b = ascii '%'
          · rw [if_pos hp]
            rw [argWords_start hp]
            have hf'' : max (max t.furthest c) (c + 1) ≤ c + 1 + u.length := max_le hf' (by omega)
            by_cases hdouble : ∃ v, u = ascii '%' :: v
            · obtain ⟨v, rfl⟩ := hdouble
              simp only [List.length_cons] at hf'' hr ih ⊢
              have hlen' : c + 1 + (v.length + 1) = c + 2 + v.length := by omega
              rw [Scan.read_eq hu.1, ok_bind, if_pos rfl]
              rw [hlen'] at hf'' ⊢
              rw [argWords_double]
              exact ih v.length (by omega) _ hu.2.2 hf'' (by omega) hn rfl
            · rw [argWords_percent (not_exists.mp hdouble)]
              obtain ⟨b', hread, hne⟩ := exists_single hu (not_exists.mp hdouble)
              rw [Scan.read_eq hread, ok_bind, if_neg hne]
              rcases Scan.take_cases
                { t with furthest := max (max t.furthest c) (c + 1) } args with
                ⟨hle, p, hp⟩ | ⟨hgt, he⟩
              · simp only at hle
                have hlt := hu.le
                rw [hp, ok_bind]
                refine scanInside_within ?_ hu hf'' (by omega) (by omega) (by simp only; omega)
                intro v hv c t rounds hs hf hr hn
                exact ih v.length (by omega) _ hs hf hr hn rfl
              · simp only at hgt
                rw [he]
                refine iff_of_false not_within_error ?_
                rintro ⟨k, hk, hle⟩
                have := argWords_conversion_pos hk
                omega
          · rw [if_neg hp]
            rw [argWords_text hp]
            exact ih _ (Nat.lt_succ_self _) _ hu hf' (by omega) hn rfl

/-! ### Calls of the handler -/

/-- The scan ends, makes no access outside its arrays, and reads the format only up to its null
character. -/
def InBounds (r : Except Halt PrintfCall) : Prop :=
  ∃ call u, r = .ok call ∧ StringAt call.formatstr 0 u ∧ call.scan.furthest ≤ u.length

theorem printfCall_inBounds (args : Chars 40) (printfArgs : Fin 10 → Word)
    (hs : StringAt formatstr 0 u) :
    InBounds (printfCall formatstr args printfArgs) ↔ WellFormed u := by
  have hscan := scanFormat_within args 80 (t := ⟨printfArgs, 0, 0⟩) hs
    (Nat.zero_le _) (by have := hs.le; omega) (Nat.zero_le _)
  have hwords : (∃ k, argWords .text u = some k ∧ 0 + k ≤ 9) ↔ WellFormed u := by
    simp only [Nat.zero_add, WellFormed]
  rw [hwords, Nat.zero_add] at hscan
  rw [← hscan]
  unfold printfCall
  constructor
  · rintro ⟨call, v, e, hv, hle⟩
    cases hf : scanFormat formatstr args 80 0 ⟨printfArgs, 0, 0⟩ with
    | error e' =>
        rw [hf] at e
        cases e
    | ok t =>
        rw [hf] at e
        cases e
        exact ⟨t, rfl, (hs.unique hv).symm ▸ hle⟩
  · rintro ⟨t, e, hle⟩
    rw [e]
    exact ⟨_, u, rfl, hs, hle⟩

theorem userFormat_eq (ha : args.word 0 = .ok a) :
    userFormat space args formatstr = .ok (Function.update
      (place formatstr 0 (fetched space a (formatstr.rest 0))) ⟨79, by decide⟩ 0) := by
  unfold userFormat
  rw [ha, ok_bind, copyString_eq (by decide) (by decide), ok_bind]
  exact Chars.store_eq (by decide)

theorem trapPrintfUser_eq
    (ha : Chars.word (place l.args 0 (readable space trapArgs 40)) 0 = .ok a) :
    trapPrintfUser space trapArgs l =
      printfCall (Function.update (place l.formatstr 0 (fetched space a (l.formatstr.rest 0)))
        ⟨79, by decide⟩ 0) (place l.args 0 (readable space trapArgs 40)) l.printfArgs := by
  unfold trapPrintfUser
  rw [memoryCopyUserToSystem_eq (by decide), ok_bind, userFormat_eq ha, ok_bind]

theorem systemFormat_eq {mem : Memory.Bytes} (ha : args.word 0 = .ok a) :
    systemFormat mem args formatstr = .ok (Function.update formatstr ⟨79, by decide⟩ 0,
      poke mem a (untilNull (formatstr.rest 0))) := by
  unfold systemFormat
  rw [ha, ok_bind, dstrncpy_eq (by decide), ok_bind, Chars.store_eq (by decide), ok_bind]
  rfl

/-- In system mode the format is what its array held before. -/
theorem trapPrintfSystem_eq (mem : Memory.Bytes) (trapArgs : Word) (l : PrintfArrays) :
    ∃ mem', trapPrintfSystem mem trapArgs l =
      (printfCall (Function.update l.formatstr ⟨79, by decide⟩ 0) (bcopy mem trapArgs)
        l.printfArgs).map (·, mem') := by
  obtain ⟨w, hw⟩ := Chars.word_ok (s := (bcopy mem trapArgs : Chars 40)) (k := 0) (by decide)
  refine ⟨poke mem w (untilNull (l.formatstr.rest 0)), ?_⟩
  unfold trapPrintfSystem
  simp only
  rw [systemFormat_eq hw, ok_bind]
  cases printfCall _ (bcopy mem trapArgs) l.printfArgs <;> rfl

/-- The scan of a format stays inside its arrays if and only if every conversion is finished and
the conversions take at most nine argument words. -/
theorem format_scan_inBounds_iff (space : UserSpace) (mem : Memory.Bytes) (trapArgs a : Word)
    (s : List Byte) (l : PrintfArrays) (ha : HasWord space trapArgs a)
    (hs : HasString space a s) :
    (InBounds (trapPrintfUser space trapArgs l) ↔ WellFormed (s.take 79)) ∧
      (InBounds ((trapPrintfSystem mem trapArgs l).map Prod.fst) ↔
        WellFormed l.formatstr.held) := by
  constructor
  · rw [trapPrintfUser_eq (word_zero ha (by decide) (by decide)), hs.fetched,
      Chars.length_rest]
    exact printfCall_inBounds _ _ (stringAt_cut hs.nonzero (by decide))
  · obtain ⟨mem', e⟩ := trapPrintfSystem_eq mem trapArgs l
    have hfst : ∀ r : Except Halt PrintfCall, (r.map (·, mem')).map Prod.fst = r := by
      rintro (_ | _) <;> rfl
    rw [e, hfst]
    exact printfCall_inBounds _ _ (Chars.stringAt_held (by decide))

/-- The format `%d` at address 4. -/
theorem format_scan_inBounds_decimal :
    (InBounds (trapPrintfUser (starting [0, 0, 0, 4, ascii '%', ascii 'd', 0]) 0
        ⟨fun _ => 0, fun _ => 0, fun _ => 0⟩) ↔ WellFormed [ascii '%', ascii 'd']) ∧
      (InBounds ((trapPrintfSystem (fun _ => 0) 0
        ⟨fun _ => 0, fun _ => 0, fun _ => 0⟩).map Prod.fst) ↔ WellFormed []) := by
  have h := format_scan_inBounds_iff (starting [0, 0, 0, 4, ascii '%', ascii 'd', 0])
    (fun _ => 0) 0 4 [ascii '%', ascii 'd'] ⟨fun _ => 0, fun _ => 0, fun _ => 0⟩
    ⟨rfl, rfl, rfl, rfl, trivial⟩
    ⟨by decide, rfl, rfl, rfl, trivial⟩
  have hheld : (show Chars 80 from fun _ => 0).held = [] := by decide
  rwa [hheld] at h

/-- A format that ends inside a conversion. -/
theorem percent_out_of_bounds :
    HasWord (starting [0, 0, 0, 4, ascii '%', 0]) 0 4 ∧
      HasString (starting [0, 0, 0, 4, ascii '%', 0]) 4 [ascii '%'] ∧
      ¬ InBounds (trapPrintfUser (starting [0, 0, 0, 4, ascii '%', 0]) 0
        ⟨fun _ => 0, fun _ => 0, fun _ => 0⟩) := by
  refine ⟨⟨rfl, rfl, rfl, rfl, trivial⟩, ⟨by decide, rfl, rfl, trivial⟩, ?_⟩
  have hrun : (trapPrintfUser (starting [0, 0, 0, 4, ascii '%', 0]) 0
      ⟨fun _ => 0, fun _ => 0, fun _ => 0⟩).toBool = false := by decide +kernel
  rintro ⟨call, u, e, -⟩
  rw [e] at hrun
  cases hrun

end DlxOs.Traps
