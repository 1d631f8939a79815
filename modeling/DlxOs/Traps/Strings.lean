import DlxOs.Traps.Handlers
import Mathlib.Data.List.TakeWhile

/-!
# Strings in memory and in arrays

A copy from user memory puts into an array the bytes up to the first address
that is not mapped. A string that is copied character by character goes on with
what the array held where the memory is not mapped.
-/

namespace DlxOs.Traps

open Kernel (Halt)
open Kernel (ok_bind)
open Memory (Bytes)

variable {n i k count rounds : ℕ} {s s' : Chars n} {b : Byte} {bs bs' u : List Byte} {a w : Word}
  {space : UserSpace}

theorem Chars.load_eq (h : i < n) : s.load i = .ok (s ⟨i, h⟩) := dif_pos h

theorem Chars.store_eq (h : i < n) : s.store i b = .ok (Function.update s ⟨i, h⟩ b) := dif_pos h

theorem Chars.load_error (h : n ≤ i) : s.load i = .error .wildAccess := dif_neg (not_lt.mpr h)

theorem Chars.store_error (h : n ≤ i) : s.store i b = .error .wildAccess := dif_neg (not_lt.mpr h)

section Place

variable {α : Type*} {x : α} {xs ys : List α} {f : Fin n → α}

/-- The array with these elements from index `i` on. -/
def place (f : Fin n → α) (i : ℕ) (xs : List α) : Fin n → α :=
  fun k => if i ≤ k.val then (xs[k.val - i]?).getD (f k) else f k

@[simp] theorem place_nil : place f i [] = f := by
  funext k
  simp [place]

theorem place_cons (h : i < n) :
    place (Function.update f ⟨i, h⟩ x) (i + 1) xs = place f i (x :: xs) := by
  funext k
  unfold place
  rcases lt_trichotomy k.val i with hk | hk | hk
  · rw [if_neg (by omega), if_neg (by omega), Function.update_of_ne (Fin.ne_of_lt hk)]
  · obtain rfl : k = ⟨i, h⟩ := Fin.ext hk
    simp
  · obtain ⟨m, hm⟩ := Nat.exists_eq_add_of_lt hk
    have hne : k ≠ ⟨i, h⟩ := Fin.ne_of_gt hk
    rw [if_pos (by omega), if_pos (by omega), Function.update_of_ne hne,
      show k.val - i = (k.val - (i + 1)) + 1 by omega, List.getElem?_cons_succ]

theorem place_of_lt {k : Fin n} (h : k.val < i) : place f i xs k = f k := if_neg (by omega)

theorem place_at {k : Fin n} (hi : i ≤ k.val) (hk : k.val - i < xs.length) :
    place f i xs k = xs[k.val - i] := by
  unfold place
  rw [if_pos hi, List.getElem?_eq_getElem hk]
  rfl

theorem place_beyond {k : Fin n} (h : i + xs.length ≤ k.val) : place f i xs k = f k := by
  unfold place
  rw [if_pos (by omega), List.getElem?_eq_none (by omega)]
  rfl

theorem place_behind (h : n ≤ i) : place f i xs = f := by
  funext k
  exact place_of_lt (by omega)

theorem place_append : place (place f i xs) (i + xs.length) ys = place f i (xs ++ ys) := by
  funext k
  rcases lt_or_ge k.val i with hk | hk
  · rw [place_of_lt (by omega), place_of_lt hk, place_of_lt hk]
  · rcases lt_or_ge k.val (i + xs.length) with hb | hb
    · rw [place_of_lt hb, place_at hk (by omega), place_at hk (by simp; omega),
        List.getElem_append_left]
    · unfold place
      rw [if_pos hb, if_pos hk, if_pos hk, List.getElem?_append_right (by omega),
        List.getElem?_eq_none (l := xs) (by omega)]
      congr 2
      omega

/-- What stands before the elements is not touched. -/
theorem update_place {k : Fin n} (h : k.val < i) :
    Function.update (place f i xs) k x = place (Function.update f k x) i xs := by
  funext j
  rcases eq_or_ne j k with rfl | hne
  · rw [Function.update_self, place_of_lt h, Function.update_self]
  · rw [Function.update_of_ne hne]
    unfold place
    rw [Function.update_of_ne hne]

theorem take_place (f : Fin n → α) (xs : List α) (h : xs.length ≤ n) :
    (List.ofFn (place f 0 xs)).take xs.length = xs := by
  apply List.ext_getElem
  · simpa using h
  · intro m h₁ h₂
    rw [List.getElem_take, List.getElem_ofFn, place_at (Nat.zero_le _) h₂]
    rfl

end Place

/-! ### Copies -/

/-- The bytes of user memory up to the first address that is not mapped. -/
def readable (space : UserSpace) : Word → ℕ → List Byte
  | _, 0 => []
  | a, count + 1 =>
    match space a with
    | none => []
    | some b => b :: readable space (a + 1) count

theorem length_readable_le : (readable space a count).length ≤ count := by
  induction count generalizing a with
  | zero => exact le_rfl
  | succ count ih =>
      unfold readable
      split
      · exact Nat.zero_le _
      · exact Nat.succ_le_succ ih

theorem memoryCopyUserToSystem_eq (h : i + count ≤ n) :
    memoryCopyUserToSystem space a s i count = .ok (place s i (readable space a count)) := by
  induction count generalizing a s i with
  | zero => rw [memoryCopyUserToSystem, readable, place_nil]
  | succ count ih =>
      unfold memoryCopyUserToSystem readable
      cases space a with
      | none => rw [place_nil]
      | some b =>
          simp only
          rw [Chars.store_eq (by omega), ok_bind, ih (by omega), place_cons]

/-- What a string copy puts into the rest of an array, which held the bytes of the list: it ends
with the first null character. -/
def fetched (space : UserSpace) : Word → List Byte → List Byte
  | _, [] => []
  | a, old :: rest =>
    let b := (space a).getD old
    if b ≠ 0 then b :: fetched space (a + 1) rest else [b]

/-- What an array holds from index `i` on. -/
def Chars.rest (s : Chars n) (i : ℕ) : List Byte := (List.ofFn s).drop i

theorem Chars.rest_eq_cons (h : i < n) : s.rest i = s ⟨i, h⟩ :: s.rest (i + 1) := by
  unfold Chars.rest
  rw [List.drop_eq_getElem_cons (by simpa using h), List.getElem_ofFn]

theorem Chars.rest_eq_nil (h : n ≤ i) : s.rest i = [] :=
  List.drop_eq_nil_of_le (by simpa using h)

@[simp] theorem Chars.length_rest : (s.rest i).length = n - i := by
  simp [Chars.rest]

theorem Chars.rest_update (h : i < n) :
    Chars.rest (Function.update s ⟨i, h⟩ b) (i + 1) = s.rest (i + 1) := by
  apply List.ext_getElem
  · simp
  · intro m h₁ h₂
    have hm : i + 1 + m < n := by
      rw [Chars.length_rest] at h₁
      omega
    simp only [Chars.rest, List.getElem_drop, List.getElem_ofFn]
    exact Function.update_of_ne (Fin.ne_of_gt (show i < i + 1 + m by omega)) _ _

/-- A string copy inside the array. -/
theorem copyString_eq (h : i < n) (hr : n - i ≤ rounds) :
    copyString space rounds a i s = .ok (i + (fetched space a (s.rest i)).length,
      place s i (fetched space a (s.rest i))) := by
  induction rounds generalizing a i s with
  | zero => omega
  | succ rounds ih =>
      let b := (space a).getD (s ⟨i, h⟩)
      have hone : memoryCopyUserToSystem space a s i 1 = .ok (Function.update s ⟨i, h⟩ b) := by
        unfold memoryCopyUserToSystem
        cases hs : space a with
        | none =>
            have hb : b = s ⟨i, h⟩ := by simp [b, hs]
            rw [hb, Function.update_eq_self]
        | some c =>
            have hb : b = c := by simp [b, hs]
            simp only
            rw [Chars.store_eq h, ok_bind, hb]
            rfl
      have hload : (show Chars n from Function.update s ⟨i, h⟩ b).load i = .ok b := by
        rw [Chars.load_eq h, Function.update_self]
      rw [Chars.rest_eq_cons h]
      unfold copyString fetched
      rw [hone, ok_bind]
      change (if i + 1 < n then _ else _) = Except.ok (i + (if b ≠ 0 then _ else [b]).length,
        place s i (if b ≠ 0 then _ else [b]))
      by_cases hn : i + 1 < n
      · rw [if_pos hn, hload, ok_bind]
        by_cases hb : b ≠ 0
        · rw [if_pos hb, if_pos hb, ih hn (by omega), Chars.rest_update, place_cons]
          congr 2
          simp only [List.length_cons]
          omega
        · rw [if_neg hb, if_neg hb, ← place_cons h, place_nil]
          rfl
      · have hnil : s.rest (i + 1) = [] := Chars.rest_eq_nil (by omega)
        rw [if_neg hn, hnil, fetched]
        by_cases hb : b ≠ 0
        · rw [if_pos hb, ← place_cons h, place_nil]
          rfl
        · rw [if_neg hb, ← place_cons h, place_nil]
          rfl

/-- A string copy that starts behind the array writes there, unless nothing is mapped. -/
theorem copyString_behind (rounds : ℕ) (h : n ≤ i) :
    copyString space (rounds + 1) a i s =
      if space a = none then .ok (i + 1, s) else .error .wildAccess := by
  unfold copyString memoryCopyUserToSystem
  cases space a with
  | none =>
      rw [ok_bind, if_neg (by omega), if_pos rfl]
      rfl
  | some b =>
      simp only
      rw [Chars.store_error h, if_neg (by simp)]
      rfl

/-! ### Strings -/

/-- The addresses from `a` on read as these bytes. -/
def Reads (space : UserSpace) : Word → List Byte → Prop
  | _, [] => True
  | a, b :: bs => space a = some b ∧ Reads space (a + 1) bs

/-- The string at an address, which a null character ends. -/
structure HasString (space : UserSpace) (a : Word) (s : List Byte) : Prop where
  nonzero : ∀ b ∈ s, b ≠ 0
  reads : Reads space a (s ++ [0])

/-- The bytes of a word in memory. -/
def bytesOf (w : Word) : List Byte :=
  [w.extractLsb' 24 8, w.extractLsb' 16 8, w.extractLsb' 8 8, w.extractLsb' 0 8]

/-- The word at an address. -/
def HasWord (space : UserSpace) (a w : Word) : Prop := Reads space a (bytesOf w)

/-- The words at an address, one after the other. -/
def HasWords (space : UserSpace) (a : Word) (ws : List Word) : Prop :=
  Reads space a (ws.flatMap bytesOf)

/-- The string at an index of an array, which a null character ends. -/
def StringAt (s : Chars n) (i : ℕ) : List Byte → Prop
  | [] => s.load i = .ok 0
  | b :: u => s.load i = .ok b ∧ b ≠ 0 ∧ StringAt s (i + 1) u

theorem addr_succ {m : ℕ} : a + 1 + BitVec.ofNat 32 m = a + BitVec.ofNat 32 (m + 1) := by
  rw [BitVec.add_assoc, BitVec.ofNat_add, BitVec.add_comm (1 : Word)]
  rfl

theorem reads_iff : Reads space a bs ↔
    ∀ m (hm : m < bs.length), space (a + BitVec.ofNat 32 m) = some bs[m] := by
  induction bs generalizing a with
  | nil => exact iff_of_true trivial fun m hm => absurd hm (Nat.not_lt_zero m)
  | cons b bs ih =>
      rw [Reads, ih]
      constructor
      · rintro ⟨hb, h⟩ m hm
        cases m with
        | zero => simpa using hb
        | succ m =>
            rw [← addr_succ]
            exact h m (by simpa using hm)
      · intro h
        refine ⟨(congrArg space (BitVec.add_zero a)).symm.trans (h 0 (by simp)), fun m hm => ?_⟩
        rw [addr_succ]
        exact h (m + 1) (by simpa using hm)

theorem reads_append : Reads space a (bs ++ bs') ↔
    Reads space a bs ∧ Reads space (a + BitVec.ofNat 32 bs.length) bs' := by
  induction bs generalizing a with
  | nil => simp [Reads]
  | cons b bs ih =>
      rw [List.cons_append, Reads, Reads, ih, addr_succ, and_assoc]
      rfl

theorem Reads.of_starts (h : Reads space a bs) (hp : bs' <+: bs) : Reads space a bs' := by
  rw [reads_iff] at h ⊢
  intro m hm
  rw [hp.getElem hm]
  exact h m (hm.trans_le hp.length_le)

/-- A user memory that starts with these bytes. -/
def starting (bs : List Byte) : UserSpace := fun a => bs[a.toNat]?

theorem Reads.readable (h : Reads space a bs) (hc : bs.length ≤ count) :
    bs <+: readable space a count := by
  induction bs generalizing a count with
  | nil => exact List.nil_prefix
  | cons b bs ih =>
      obtain ⟨m, rfl⟩ := Nat.exists_eq_add_of_lt (show 0 < count by simp at hc; omega)
      rw [Nat.zero_add] at hc ⊢
      unfold Traps.readable
      rw [h.1]
      exact List.cons_prefix_cons.mpr ⟨rfl, ih h.2 (by simpa using hc)⟩

/-- A string that is mapped is fetched as it is, or cut at the end of the array. -/
theorem HasString.fetched {t old : List Byte} (h : HasString space a t) :
    fetched space a old = (t ++ [0]).take old.length := by
  induction old generalizing a t with
  | nil => rfl
  | cons old rest ih =>
      unfold Traps.fetched
      cases t with
      | nil =>
          have hz : space a = some 0 := h.reads.1
          simp [hz]
      | cons b t =>
          have hb : space a = some b := h.reads.1
          have hne : b ≠ 0 := h.nonzero b (List.mem_cons_self ..)
          have ht : HasString space (a + 1) t :=
            ⟨fun c hc => h.nonzero c (List.mem_cons_of_mem _ hc), h.reads.2⟩
          rw [hb, Option.getD_some]
          simp only
          rw [if_pos hne, ih ht, List.cons_append, List.length_cons, List.take_succ_cons]

theorem StringAt.le (h : StringAt s i u) : i + u.length < n := by
  induction u generalizing i with
  | nil =>
      by_contra hi
      rw [StringAt, Chars.load_error (by simpa using hi)] at h
      cases h
  | cons b u ih =>
      have := ih h.2.2
      simp only [List.length_cons]
      omega

theorem stringAt_of_load (hz : ∀ b ∈ u, b ≠ 0)
    (hat : ∀ m (hm : m < (u ++ [0]).length), s.load (i + m) = .ok ((u ++ [0])[m])) :
    StringAt s i u := by
  induction u generalizing i with
  | nil => exact hat 0 (by simp)
  | cons b u ih =>
      refine ⟨hat 0 (by simp), hz b (List.mem_cons_self ..), ih ?_ ?_⟩
      · exact fun c hc => hz c (List.mem_cons_of_mem _ hc)
      · intro m hm
        have := hat (m + 1) (by simpa using hm)
        rw [show i + 1 + m = i + (m + 1) by omega, this]
        rfl

theorem StringAt.nonzero (h : StringAt s i u) : ∀ b ∈ u, b ≠ 0 := by
  induction u generalizing i with
  | nil => exact fun b hb => absurd hb List.not_mem_nil
  | cons b u ih => exact List.forall_mem_cons.mpr ⟨h.2.1, ih h.2.2⟩

theorem StringAt.load {m : ℕ} (h : StringAt s i u) (hm : m < (u ++ [0]).length) :
    s.load (i + m) = .ok ((u ++ [0])[m]) := by
  induction u generalizing i m with
  | nil =>
      obtain rfl : m = 0 := by
        simp only [List.nil_append, List.length_singleton] at hm
        omega
      exact h
  | cons b u ih =>
      cases m with
      | zero => exact h.1
      | succ m =>
          have := ih h.2.2 (m := m) (by simpa using hm)
          rw [show i + 1 + m = i + (m + 1) by omega] at this
          exact this

/-- A string that was placed with its null character. -/
theorem stringAt_place (hz : ∀ b ∈ u, b ≠ 0) (h : i + u.length < n) (hb : u ++ [0] <+: bs) :
    StringAt (place s i bs) i u := by
  apply stringAt_of_load hz
  intro m hm
  have hlen := hb.length_le
  have hlt : i + m < n := by
    rw [List.length_append, List.length_singleton] at hm
    omega
  rw [Chars.load_eq hlt, place_at (by simp) (by simp; omega)]
  simp only [Nat.add_sub_cancel_left]
  rw [hb.getElem hm]

/-- The string in an array whose last character is to be cleared. -/
def Chars.held (s : Chars n) : List Byte := ((List.ofFn s).take (n - 1)).takeWhile (· != 0)

theorem takeWhile_nonzero_starts : bs.takeWhile (· != 0) ++ [0] <+: bs ++ [0] := by
  induction bs with
  | nil => exact List.prefix_rfl
  | cons b bs ih =>
      by_cases hb : b = 0
      · subst hb
        exact ⟨bs ++ [0], rfl⟩
      · rw [List.takeWhile_cons_of_pos (by simpa using hb)]
        exact List.cons_prefix_cons.mpr ⟨rfl, ih⟩

theorem Chars.stringAt_held (h : n - 1 < n) :
    StringAt (Function.update s ⟨n - 1, h⟩ 0) 0 s.held := by
  have hz : ∀ b ∈ s.held, b ≠ 0 := fun b hb => by simpa using List.mem_takeWhile_imp hb
  apply stringAt_of_load hz
  intro m hm
  have hpre : s.held ++ [0] <+: (List.ofFn s).take (n - 1) ++ [0] := takeWhile_nonzero_starts
  have hlen := hpre.length_le
  rw [List.length_append, List.length_append, List.length_take, List.length_ofFn,
    List.length_singleton, min_eq_left (Nat.sub_le ..)] at hlen
  rw [List.length_append, List.length_singleton] at hm
  rw [Nat.zero_add, Chars.load_eq (show m < n by omega), hpre.getElem (by simpa using hm)]
  rcases Nat.lt_or_ge m (n - 1) with hlt | hge
  · rw [Function.update_of_ne (Fin.ne_of_lt hlt), List.getElem_append_left (by simp; omega)]
    simp
  · obtain rfl : m = n - 1 := by omega
    rw [Function.update_self, List.getElem_append_right (by simp)]
    simp

/-- A string that was copied, cut so that its null character fits. -/
theorem stringAt_cut (hz : ∀ b ∈ u, b ≠ 0) (h : n - 1 < n) :
    StringAt (Function.update (place s 0 ((u ++ [0]).take n)) ⟨n - 1, h⟩ 0) 0
      (u.take (n - 1)) := by
  apply stringAt_of_load fun b hb => hz b (List.mem_of_mem_take hb)
  intro m hm
  rw [List.length_append, List.length_singleton, List.length_take] at hm
  rw [Nat.zero_add, Chars.load_eq (show m < n by omega)]
  rcases Nat.lt_or_ge m (n - 1) with hlt | hge
  · rw [Function.update_of_ne (Fin.ne_of_lt hlt),
      place_at (Nat.zero_le _) (by simp; omega)]
    congr 1
    simp only [Nat.sub_zero, List.getElem_take]
    rcases Nat.lt_or_ge m u.length with hin | hend
    · rw [List.getElem_append_left hin, List.getElem_append_left (by simp; omega),
        List.getElem_take]
    · rw [List.getElem_append_right hend, List.getElem_append_right (by simp; omega)]
      simp
  · obtain rfl : m = n - 1 := by omega
    rw [Function.update_self, List.getElem_append_right (by simp)]
    simp

/-- What is copied ends with its null character, or fills the array. -/
theorem exists_fetched (space : UserSpace) (a : Word) (old : List Byte) :
    ∃ u : List Byte, (∀ b ∈ u, b ≠ 0) ∧ fetched space a old = (u ++ [0]).take old.length := by
  induction old generalizing a with
  | nil => exact ⟨[], by simp, by simp [fetched]⟩
  | cons old rest ih =>
      unfold fetched
      simp only
      split
      · rename_i hb
        obtain ⟨u, hu, e⟩ := ih (a + 1)
        refine ⟨(space a).getD old :: u, ?_, ?_⟩
        · simpa using ⟨hb, hu⟩
        · rw [e]
          rfl
      · rename_i hb
        exact ⟨[], by simp, by simpa using hb⟩

theorem StringAt.unique {v : List Byte} (hu : StringAt s i u) (hv : StringAt s i v) : u = v := by
  induction u generalizing i v with
  | nil =>
      cases v with
      | nil => rfl
      | cons b v => exact absurd (Except.ok.inj (hv.1.symm.trans hu)) hv.2.1
  | cons b u ih =>
      cases v with
      | nil => exact absurd (Except.ok.inj (hu.1.symm.trans hv)) hu.2.1
      | cons b' v =>
          obtain rfl : b = b' := Except.ok.inj (hu.1.symm.trans hv.1)
          rw [ih hu.2.2 hv.2.2]

/-- A string in an array does not depend on what comes behind it. -/
theorem StringAt.congr (h : StringAt s i u) (hs : ∀ k ≤ i + u.length, s'.load k = s.load k) :
    StringAt s' i u := by
  induction u generalizing i with
  | nil => exact (hs i (by simp)).trans h
  | cons b u ih =>
      refine ⟨(hs i (by simp)).trans h.1, h.2.1, ih h.2.2 fun k hk => hs k ?_⟩
      simp only [List.length_cons]
      omega

theorem rest_place :
    Chars.rest (place s i bs) (i + bs.length) = (s.rest i).drop bs.length := by
  apply List.ext_getElem
  · simp [Nat.sub_sub]
  · intro m h₁ h₂
    simp only [Chars.rest, List.getElem_drop, List.getElem_ofFn, List.drop_drop]
    exact place_beyond (by simp)

theorem place_eq_self (h : bs <+: s.rest 0) : place s 0 bs = s := by
  funext k
  rcases Nat.lt_or_ge k.val bs.length with hk | hk
  · rw [place_at (Nat.zero_le _) hk]
    simp only [Nat.sub_zero]
    rw [h.getElem hk]
    simp [Chars.rest]
  · exact place_beyond (by omega)

theorem Chars.word_ok (h : 4 * k + 3 < n) : ∃ w, s.word k = .ok w := by
  unfold Chars.word
  rw [Chars.load_eq (show 4 * k < n by omega), ok_bind,
    Chars.load_eq (show 4 * k + 1 < n by omega), ok_bind,
    Chars.load_eq (show 4 * k + 2 < n by omega), ok_bind, Chars.load_eq h, ok_bind]
  exact ⟨_, rfl⟩

theorem Chars.word_error (h : n ≤ 4 * k) : s.word k = .error .wildAccess := by
  unfold Chars.word
  rw [Chars.load_error h]
  rfl

theorem load_place (hk : k < bs.length) (hn : k < n) :
    Chars.load (place s 0 bs) k = .ok bs[k] := by
  rw [Chars.load_eq hn, place_at (Nat.zero_le _) hk]
  rfl

theorem append_bytesOf : w.extractLsb' 24 8 ++ w.extractLsb' 16 8 ++ w.extractLsb' 8 8 ++
    w.extractLsb' 0 8 = w := by
  rw [BitVec.extractLsb'_append_extractLsb'_eq_extractLsb' (by rfl),
    BitVec.extractLsb'_append_extractLsb'_eq_extractLsb' (by rfl),
    BitVec.extractLsb'_append_extractLsb'_eq_extractLsb' (by rfl)]
  simp

theorem length_bytesOf {ws : List Word} : (ws.flatMap bytesOf).length = 4 * ws.length := by
  simp [bytesOf, Nat.mul_comm]

theorem bytesOf_getElem? {ws : List Word} {j : ℕ} (hk : k < ws.length) (hj : j < 4) :
    (ws.flatMap bytesOf)[4 * k + j]? = (bytesOf ws[k])[j]? := by
  induction ws generalizing k with
  | nil => exact absurd hk (Nat.not_lt_zero k)
  | cons w ws ih =>
      have hlen : (bytesOf w).length = 4 := rfl
      rw [List.flatMap_cons]
      cases k with
      | zero => rw [List.getElem?_append_left (by omega), Nat.mul_zero, Nat.zero_add]; rfl
      | succ k =>
          rw [List.getElem?_append_right (by omega), hlen,
            show 4 * (k + 1) + j - 4 = 4 * k + j by omega, ih (by simpa using hk)]
          rfl

/-- A word of the words that were placed. -/
theorem word_place {ws : List Word} (hp : ws.flatMap bytesOf <+: bs) (hk : k < ws.length)
    (hn : 4 * ws.length ≤ n) : Chars.word (place s 0 bs) k = .ok ws[k] := by
  have hlen := hp.length_le
  rw [length_bytesOf] at hlen
  have hload : ∀ j, (hj : j < 4) →
      Chars.load (place s 0 bs) (4 * k + j) = .ok ((bytesOf ws[k]).get ⟨j, hj⟩) := by
    intro j hj
    have hin : 4 * k + j < (ws.flatMap bytesOf).length := by
      rw [length_bytesOf]
      omega
    rw [load_place (by omega) (by omega), ← hp.getElem hin]
    congr 1
    apply Option.some.inj
    rw [← List.getElem?_eq_getElem hin, bytesOf_getElem? hk hj]
    exact List.getElem?_eq_getElem (show j < (bytesOf ws[k]).length from hj)
  unfold Chars.word
  have hzero := hload 0 (by decide)
  rw [Nat.add_zero] at hzero
  rw [hzero, ok_bind, hload 1 (by decide), ok_bind, hload 2 (by decide), ok_bind,
    hload 3 (by decide), ok_bind]
  exact congrArg Except.ok append_bytesOf

/-- A word of the arguments. -/
theorem word_readable {ws : List Word} (h : HasWords space a ws) (hk : k < ws.length)
    (hc : 4 * ws.length ≤ count) (hn : 4 * ws.length ≤ n) :
    Chars.word (place s 0 (readable space a count)) k = .ok ws[k] :=
  word_place (Reads.readable h (by rwa [length_bytesOf])) hk hn

/-- The first word of the arguments. -/
theorem word_zero (h : HasWord space a w) (hc : 4 ≤ count) (hn : 4 ≤ n) :
    Chars.word (place s 0 (readable space a count)) 0 = .ok w := by
  have hs : HasWords space a [w] := by
    unfold HasWords
    rwa [List.flatMap_singleton]
  exact word_readable hs (Nat.zero_lt_one) hc hn

/-! ### Copies in system mode -/

/-- The bytes up to the first null character. -/
def untilNull : List Byte → List Byte
  | [] => []
  | b :: bs => if b ≠ 0 then b :: untilNull bs else [b]

/-- The memory with these bytes from an address on. -/
def poke (mem : Bytes) : Word → List Byte → Bytes
  | _, [] => mem
  | a, b :: bs => poke (Function.update mem a b) (a + 1) bs

theorem dstrncpy_eq {mem : Bytes} (h : i + count = n) :
    dstrncpy mem a s i count = .ok (poke mem a (untilNull (s.rest i))) := by
  induction count generalizing mem a i with
  | zero =>
      rw [Chars.rest_eq_nil (by omega)]
      rfl
  | succ count ih =>
      have hi : i < n := by omega
      rw [Chars.rest_eq_cons hi]
      unfold dstrncpy untilNull
      rw [Chars.load_eq hi, ok_bind]
      simp only
      split
      · exact ih (by omega)
      · rfl

theorem untilNull_of_starts (hz : ∀ b ∈ u, b ≠ 0) (h : (u ++ [0]).take count <+: bs)
    (hc : bs.length = count) : untilNull bs = (u ++ [0]).take count := by
  induction bs generalizing u count with
  | nil =>
      subst hc
      rfl
  | cons b bs ih =>
      subst hc
      rw [List.length_cons] at h ⊢
      unfold untilNull
      cases u with
      | nil =>
          rw [List.nil_append, List.take_succ_cons, List.cons_prefix_cons] at h
          obtain ⟨rfl, -⟩ := h
          simp
      | cons c u =>
          rw [List.cons_append, List.take_succ_cons, List.cons_prefix_cons] at h
          obtain ⟨rfl, h⟩ := h
          rw [if_pos (hz c (List.mem_cons_self ..)),
            ih (fun b hb => hz b (List.mem_cons_of_mem _ hb)) h rfl]
          rfl

theorem untilNull_append (hz : ∀ b ∈ u, b ≠ 0) : untilNull (u ++ [b]) = u ++ [b] := by
  induction u with
  | nil =>
      unfold untilNull
      simp [untilNull]
  | cons c u ih =>
      rw [List.cons_append, untilNull, if_pos (hz c (List.mem_cons_self ..)),
        ih fun b hb => hz b (List.mem_cons_of_mem _ hb)]

/-- A memory in which every address reads as its byte. -/
def identity (mem : Bytes) : UserSpace := fun a => some (mem a)

theorem reads_identity {mem : Bytes} : Reads (identity mem) a bs ↔
    ∀ m (hm : m < bs.length), mem (a + BitVec.ofNat 32 m) = bs[m] := by
  simp only [reads_iff, identity, Option.some.injEq]

theorem readable_identity {mem : Bytes} :
    place s 0 (readable (identity mem) a n) = bcopy mem a := by
  have hall : Reads (identity mem) a (List.ofFn (bcopy mem a : Chars n)) := by
    apply reads_identity.mpr
    intro m hm
    rw [List.getElem_ofFn]
    rfl
  have hpre : List.ofFn (bcopy mem a : Chars n) <+: readable (identity mem) a n :=
    hall.readable (by simp)
  have heq := hpre.eq_of_length_le (by simpa using length_readable_le)
  funext k
  rw [← heq, place_at (Nat.zero_le _) (by simp)]
  simp

theorem poke_eq_self {mem : Bytes} (h : Reads (identity mem) a bs) : poke mem a bs = mem := by
  induction bs generalizing a with
  | nil => rfl
  | cons b bs ih =>
      have hb : mem a = b := Option.some.inj h.1
      rw [poke, ← hb, Function.update_eq_self]
      exact ih h.2

theorem poke_before {mem : Bytes} (h : ∀ m < u.length, w ≠ a + BitVec.ofNat 32 m) :
    poke mem a u w = mem w := by
  induction u generalizing mem a with
  | nil => rfl
  | cons c u ih =>
      rw [poke, ih ?_, Function.update_of_ne]
      · simpa using h 0 (by simp)
      · intro m hm e
        rw [addr_succ] at e
        exact h (m + 1) (by simpa using hm) e

theorem poke_at {mem : Bytes} {m : ℕ} (hm : m < u.length) (hu : u.length ≤ 2 ^ 32) :
    poke mem a u (a + BitVec.ofNat 32 m) = u[m] := by
  induction u generalizing mem a m with
  | nil => simp at hm
  | cons c u ih =>
      rw [List.length_cons] at hu
      cases m with
      | zero =>
          rw [poke, poke_before]
          · simp
          · intro k hk e
            simp only [BitVec.ofNat_eq_ofNat, BitVec.add_zero] at e
            bv_omega
      | succ m =>
          rw [poke, List.getElem_cons_succ, ← addr_succ]
          exact ih (by simpa using hm) (by omega)

end DlxOs.Traps
