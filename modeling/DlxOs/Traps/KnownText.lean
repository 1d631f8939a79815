import DlxOs.Traps.Bounds

/-!
# What is known of the argument buffer

Process creation clears the first 100 characters of its argument buffer, and
copies the strings behind each other. A character that is not mapped stays what
the buffer held; up to the first such character beyond the cleared ones, the
text does not depend on what the stack held.
-/

namespace DlxOs.Traps

variable {n : ℕ} {space : UserSpace} {a : Word} {u bs bs' old : List Byte} {c : Bool}
  {known : List (Option Byte)} {ws : List Word}

/-- What a buffer held before, as far as it is known. -/
def Agrees (known : List (Option Byte)) (old : List Byte) : Prop :=
  List.Forall₂ (fun o b => ∀ x, o = some x → b = x) known old

/-- The characters that a string copy puts into a buffer known in part, up to the first that
depends on the rest, and whether there is none. -/
def fetchedKnown (space : UserSpace) : Word → List (Option Byte) → List Byte × Bool
  | _, [] => ([], true)
  | a, old :: rest =>
    match (space a).or old with
    | none => ([], false)
    | some b =>
      if b ≠ 0 then
        let (bs, all) := fetchedKnown space (a + 1) rest
        (b :: bs, all)
      else ([b], true)

/-- The strings back to back, up to the first character that depends on the rest. -/
def packedKnown (space : UserSpace) : List Word → List (Option Byte) → List Byte × Bool
  | [], _ => ([], true)
  | a :: as, old =>
    match fetchedKnown space a old with
    | (bs, false) => (bs, false)
    | (bs, true) =>
      let (rest, all) := packedKnown space as (old.drop bs.length)
      (bs ++ rest, all)

/-- A text that is known altogether, or up to a character that the buffer held. -/
inductive KnownAs (known : List (Option Byte)) (old : List Byte) :
    List Byte × Bool → List Byte → Prop
  | all (bs : List Byte) : KnownAs known old (bs, true) bs
  | upTo (bs rest : List Byte) (b : Byte) (hk : known[bs.length]? = some none)
      (hb : old[bs.length]? = some b) : KnownAs known old (bs, false) (bs ++ b :: rest)

namespace KnownAs

theorem append (bs : List Byte)
    (h : KnownAs (known.drop bs.length) (old.drop bs.length) (bs', c) u) :
    KnownAs known old (bs ++ bs', c) (bs ++ u) := by
  cases h with
  | all => exact .all _
  | upTo _ rest b hk hb =>
      rw [← List.append_assoc]
      apply KnownAs.upTo
      · rwa [List.length_append, ← List.getElem?_drop]
      · rwa [List.length_append, ← List.getElem?_drop]

theorem starts (h : KnownAs known old (bs, c) u) : bs <+: u := by
  cases h with
  | all => exact List.prefix_rfl
  | upTo _ rest b _ _ => exact List.prefix_append ..

end KnownAs

theorem fetched_known (hk : Agrees known old) :
    KnownAs known old (fetchedKnown space a known) (fetched space a old) := by
  induction hk generalizing a with
  | nil => exact .all []
  | @cons o b known old hb _ ih =>
      unfold fetchedKnown fetched
      cases ho : (space a).or o with
      | none =>
          obtain ⟨hs, rfl⟩ := Option.or_eq_none_iff.mp ho
          rw [hs, Option.getD_none]
          simp only
          split
          · exact .upTo [] _ b rfl rfl
          · exact .upTo [] [] b rfl rfl
      | some c =>
          have hc : (space a).getD b = c := by
            cases hs : space a with
            | none =>
                rw [hs, Option.none_or] at ho
                exact hb c ho
            | some x =>
                rw [hs, Option.some_or] at ho
                exact Option.some.inj ho
          simp only [hc]
          split
          · exact KnownAs.append [c] ih
          · exact .all [c]

theorem Agrees.drop (h : Agrees known old) (m : ℕ) : Agrees (known.drop m) (old.drop m) :=
  List.forall₂_drop m h

theorem packed_known (hk : Agrees known old) :
    KnownAs known old (packedKnown space ws known) (packed space ws old) := by
  induction ws generalizing known old with
  | nil => exact .all []
  | cons a ws ih =>
      have hfirst : KnownAs known old (fetchedKnown space a known) (fetched space a old) :=
        fetched_known hk
      unfold packedKnown packed
      generalize fetched space a old = text at hfirst ⊢
      cases hf : fetchedKnown space a known with
      | mk bs all =>
          rw [hf] at hfirst
          cases hfirst with
          | upTo _ rest b hat hb =>
              rw [List.append_assoc]
              exact .upTo _ _ b hat hb
          | all =>
              have hrest := ih (hk.drop text.length)
              cases hp : packedKnown space ws (known.drop text.length) with
              | mk rest all =>
                  rw [hp] at hrest
                  simp only [hp]
                  exact hrest.append _

/-- The argument buffer before the strings come in. -/
def clearedKnown : List (Option Byte) :=
  List.ofFn fun i : Fin sizeArgBuff => if i.val < 100 then some 0 else none

theorem agrees_ofFn {f : Fin n → Option Byte} {g : Fin n → Byte}
    (h : ∀ i x, f i = some x → g i = x) : Agrees (List.ofFn f) (List.ofFn g) := by
  induction n with
  | zero => exact .nil
  | succ n ih =>
      rw [List.ofFn_succ, List.ofFn_succ]
      exact .cons (h 0) (ih fun i => h i.succ)

theorem clearedKnown_agrees (allargs : Chars sizeArgBuff) :
    Agrees clearedKnown ((cleared allargs).rest 0) := by
  rw [Chars.rest, List.drop_zero]
  apply agrees_ofFn
  intro i x hx
  split at hx
  · rename_i hlt
    obtain rfl := Option.some.inj hx
    exact if_pos hlt
  · cases hx

theorem clearedKnown_none {m : ℕ} (h : clearedKnown[m]? = some none) : 100 ≤ m := by
  unfold clearedKnown at h
  obtain ⟨hm, hat⟩ := List.getElem?_eq_some_iff.mp h
  rw [List.getElem_ofFn] at hat
  by_contra hlt
  rw [if_pos (show m < 100 by omega)] at hat
  cases hat

/-- The text of the strings, up to the first character that the stack held. -/
def knownText (space : UserSpace) (ws : List Word) : List Byte :=
  (packedKnown space ws clearedKnown).1

theorem knownText_starts (allargs : Chars sizeArgBuff) :
    knownText space ws <+: packed space ws ((cleared allargs).rest 0) :=
  (packed_known (clearedKnown_agrees allargs)).starts

/-- The buffer as it is after the copies. -/
def packedBuffer (space : UserSpace) (ws : List Word) (allargs : Chars sizeArgBuff) :
    Chars sizeArgBuff :=
  place (cleared allargs) 0 (packed space ws ((cleared allargs).rest 0))

theorem packedBuffer_starts (allargs : Chars sizeArgBuff) (h : bs <+: knownText space ws)
    (hlen : bs.length ≤ sizeArgBuff) : bs <+: List.ofFn (packedBuffer space ws allargs) := by
  have hstarts := h.trans (knownText_starts allargs)
  rw [List.prefix_iff_getElem]
  refine ⟨by rwa [List.length_ofFn], fun m hm => ?_⟩
  rw [hstarts.getElem hm, List.getElem_ofFn]
  symm
  exact place_at (Nat.zero_le _) _

/-- The first character that is not known is what the stack held. -/
theorem exists_open (h : (knownText space ws).length < n) (hmin : 100 < n) (hn : n ≤ sizeArgBuff) :
    ∃ m, ∃ hm : m < n, ∀ b : Byte,
      packedBuffer space ws (fun _ => b) ⟨m, hm.trans_le hn⟩ = b := by
  unfold knownText at h
  have hpacked : ∀ b : Byte, KnownAs clearedKnown ((cleared fun _ => b).rest 0)
      (packedKnown space ws clearedKnown) (packed space ws ((cleared fun _ => b).rest 0)) :=
    fun b => packed_known (clearedKnown_agrees fun _ => b)
  cases hk : packedKnown space ws clearedKnown with
  | mk text all =>
      rw [hk] at h hpacked
      cases all with
      | true =>
          refine ⟨max text.length 100, max_lt h hmin, fun b => ?_⟩
          have hb := hpacked b
          unfold packedBuffer
          generalize packed space ws ((cleared fun _ => b).rest 0) = whole at hb ⊢
          cases hb
          rw [place_beyond (by simp)]
          exact if_neg (by simp)
      | false =>
          refine ⟨text.length, h, fun b => ?_⟩
          have hb := hpacked b
          unfold packedBuffer
          generalize packed space ws ((cleared fun _ => b).rest 0) = whole at hb ⊢
          cases hb with
          | upTo _ rest b' hopen hheld =>
              rw [Chars.rest, List.drop_zero] at hheld
              obtain ⟨hin, hheld⟩ := List.getElem?_eq_some_iff.mp hheld
              rw [List.getElem_ofFn] at hheld
              rw [place_at (Nat.zero_le _) (by simp)]
              simp only [Nat.sub_zero]
              rw [List.getElem_append_right (Nat.le_refl _)]
              simpa [← hheld, cleared] using fun hm => absurd hm (clearedKnown_none hopen).not_gt

/-- What the buffer begins with whatever the stack held is known. -/
theorem knownText_of_same (hlen : bs.length ≤ sizeArgBuff) (hmin : 100 < bs.length)
    (h : ∀ allargs, bs <+: List.ofFn (packedBuffer space ws allargs)) :
    bs <+: knownText space ws := by
  have hat : ∀ allargs m, (hm : m < bs.length) →
      bs[m] = packedBuffer space ws allargs ⟨m, hm.trans_le hlen⟩ := by
    intro allargs m hm
    rw [(h allargs).getElem hm, List.getElem_ofFn]
  have hlong : bs.length ≤ (knownText space ws).length := by
    by_contra hlt
    push Not at hlt
    obtain ⟨m, hm, hopen⟩ := exists_open hlt hmin hlen
    have hsame : (0 : Byte) = 1 := by
      rw [← hopen 0, ← hopen 1, ← hat _ m hm, ← hat _ m hm]
    exact absurd hsame (by decide)
  have hlength : ((knownText space ws).take bs.length).length = bs.length := by
    rw [List.length_take, min_eq_left hlong]
  have hstarts := packedBuffer_starts (fun _ => 0) (List.take_prefix ..) (hlength.trans_le hlen)
  exact (List.prefix_of_prefix_length_le (h _) hstarts hlength.ge).trans (List.take_prefix ..)

end DlxOs.Traps
