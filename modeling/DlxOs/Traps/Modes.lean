import DlxOs.Traps.Bounds
import DlxOs.Traps.Format

/-!
# Traps in system mode

In system mode the handlers copy what their arrays held before over the strings
of the caller, and put every argument of a new process at the same place. Both
modes see the same arguments only if the arrays held them already.
-/

namespace DlxOs.Traps

open Kernel (Halt)
open Kernel (ok_bind)
open Memory (Bytes)

variable {n i j rounds : ℕ} {a trapArgs : Word} {u old : List Byte} {mem : Bytes} {s : Chars n}
  {ws : List Word} {ss : List (List Byte)} {args : Chars (4 * maxArgs)}
  {allargs : Chars sizeArgBuff}

/-! ### One string -/

/-- A string that the array holds already changes nothing. -/
theorem poke_held (hs : HasString (identity mem) a u) (h : (u ++ [0]).take n <+: s.rest 0) :
    poke mem a (untilNull (s.rest 0)) = mem := by
  rw [untilNull_of_starts hs.nonzero h (by simp)]
  exact poke_eq_self (hs.reads.of_starts (List.take_prefix _ _))

/-- A copy of the array over the string at `a` changes nothing, and both modes see the same string, if
and only if the array held that string already. -/
theorem overwrite_iff (h : n - 1 < n) (hn : n ≤ 2 ^ 32) (hs : HasString (identity mem) a u) :
    StringAt (Function.update s ⟨n - 1, h⟩ 0) 0 (u.take (n - 1)) ∧
        HasString (identity (poke mem a (untilNull (s.rest 0)))) a u ↔
      (u ++ [0]).take n <+: s.rest 0 := by
  have hlen : (s.rest 0).length = n := by simp
  constructor
  · rintro ⟨hu, hpoke⟩
    -- all but the last character are seen in the string, the last one in the memory
    have hfirst : ∀ m (hm : m < n - 1) (hm' : m < (u ++ [0]).length),
        s ⟨m, by omega⟩ = (u ++ [0])[m] := by
      intro m hm hm'
      have hin : m < (u.take (n - 1) ++ [0]).length := by
        simp only [List.length_append, List.length_take, List.length_singleton] at hm' ⊢
        omega
      have hload := hu.load hin
      rw [Nat.zero_add, Chars.load_eq (show m < n by omega),
        Function.update_of_ne (Fin.ne_of_lt hm)] at hload
      rw [Except.ok.inj hload]
      rcases Nat.lt_or_ge m u.length with hlt | hge
      · rw [List.getElem_append_left hlt, List.getElem_append_left (by simp; omega),
          List.getElem_take]
      · rw [List.getElem_append_right hge, List.getElem_append_right (by simp; omega)]
        simp
    rw [List.prefix_iff_getElem]
    refine ⟨by simp, fun m hm => ?_⟩
    rw [List.getElem_take]
    rw [List.length_take] at hm
    have hm' : m < (s.rest 0).length := by omega
    have hget : (s.rest 0)[m] = s ⟨m, by omega⟩ := by simp [Chars.rest]
    rw [hget]
    rcases Nat.lt_or_ge m (n - 1) with hlt | hge
    · exact (hfirst m hlt (by omega)).symm
    · obtain rfl : m = n - 1 := by omega
      have hne : s.rest 0 ≠ [] := List.ne_nil_of_length_pos (by omega)
      have hlong : n - 1 ≤ u.length := by
        rw [List.length_append, List.length_singleton] at hm
        omega
      have hall : untilNull (s.rest 0) = s.rest 0 := by
        rw [← List.dropLast_concat_getLast hne]
        apply untilNull_append
        intro b hb
        obtain ⟨m, hm', rfl⟩ := List.getElem_of_mem hb
        rw [List.length_dropLast, hlen] at hm'
        rw [List.getElem_dropLast, show (s.rest 0)[m] = s ⟨m, by omega⟩ by simp [Chars.rest],
          hfirst m hm' (by simp; omega), List.getElem_append_left (by omega)]
        exact hs.nonzero _ (List.getElem_mem _)
      have hmem := reads_identity.mp hpoke.reads (n - 1) (by omega)
      rw [hall, poke_at (by omega) (by omega)] at hmem
      rw [← hmem, hget]
  · intro hpre
    rw [poke_held hs hpre]
    refine ⟨?_, hs⟩
    have hcut := stringAt_cut (s := s) hs.nonzero h
    rwa [place_eq_self hpre] at hcut

/-! ### The arguments of a new process -/

theorem HasString.head {b : Byte} (h : HasString (identity mem) a (b :: u)) :
    mem a = b ∧ b ≠ 0 ∧ HasString (identity mem) (a + 1) u :=
  ⟨Option.some.inj h.reads.1, h.nonzero b (List.mem_cons_self ..),
    fun c hc => h.nonzero c (List.mem_cons_of_mem _ hc), h.reads.2⟩

theorem dstrlen_eq (h : HasString (identity mem) a u) (hr : u.length < rounds) :
    dstrlen mem a i rounds = .ok (i + u.length) := by
  induction u generalizing a i rounds with
  | nil =>
      obtain ⟨rounds, rfl⟩ := Nat.exists_eq_succ_of_ne_zero (Nat.ne_of_gt hr)
      have hz : mem a = 0 := Option.some.inj h.reads.1
      unfold dstrlen
      rw [if_neg (by simpa using hz)]
      rfl
  | cons b u ih =>
      obtain ⟨rounds, rfl⟩ := Nat.exists_eq_succ_of_ne_zero (Nat.ne_of_gt (Nat.zero_lt_of_lt hr))
      obtain ⟨rfl, hb, hu⟩ := h.head
      unfold dstrlen
      rw [if_pos hb, ih hu (by simpa using hr), List.length_cons, Nat.add_assoc, Nat.add_comm 1]

theorem dstrcpy_eq {«to» : Chars n} (h : HasString (identity mem) a u) (hr : u.length < rounds)
    (hn : i + u.length < n) : dstrcpy mem i «to» a rounds = .ok (place «to» i (u ++ [0])) := by
  induction u generalizing a i rounds «to» with
  | nil =>
      obtain ⟨rounds, rfl⟩ := Nat.exists_eq_succ_of_ne_zero (Nat.ne_of_gt hr)
      have hz : mem a = 0 := Option.some.inj h.reads.1
      have hi : i < n := hn
      unfold dstrcpy
      simp only
      rw [hz, Chars.store_eq hi, ok_bind, List.nil_append, ← place_cons hi, place_nil]
      rfl
  | cons b u ih =>
      obtain ⟨rounds, rfl⟩ := Nat.exists_eq_succ_of_ne_zero (Nat.ne_of_gt (Nat.zero_lt_of_lt hr))
      obtain ⟨rfl, hb, hu⟩ := h.head
      simp only [List.length_cons] at hr hn
      unfold dstrcpy
      simp only
      rw [Chars.store_eq (show i < n by omega), ok_bind, if_pos hb,
        ih hu (by omega) (by omega), List.cons_append, place_cons]

theorem update_place_end (h : u.length < n) :
    Function.update (place s 0 (u ++ [0])) ⟨u.length, h⟩ 0 = place s 0 (u ++ [0]) := by
  rw [Function.update_eq_self_iff, place_at (Nat.zero_le _) (by simp)]
  simp

/-- The strings at the same place, one over the other. -/
def overlay (allargs : Chars n) : List (List Byte) → Chars n
  | [] => allargs
  | u :: us => overlay (place allargs 0 (u ++ [0])) us

theorem copyArgsSystem_eq (hj : j + rounds ≤ maxArgs)
    (h : List.Forall₂ (HasString (identity mem)) (argVector args rounds j) ss)
    (hlen : ∀ u ∈ ss, u.length ≤ 100) :
    copyArgsSystem mem args rounds j allargs = .ok (overlay allargs ss) := by
  induction rounds generalizing j allargs ss with
  | zero =>
      cases h
      rfl
  | succ rounds ih =>
      obtain ⟨a, ha⟩ := Chars.word_ok (s := args) (k := j) (by omega)
      by_cases hz : a = 0
      · subst hz
        rw [argVector_zero ha] at h
        cases h
        unfold copyArgsSystem
        rw [ha]
        rfl
      · rw [argVector_succ ha hz] at h
        cases h with
        | @cons _ u _ us hu hus =>
            have hle : u.length ≤ 100 := hlen u (List.mem_cons_self ..)
            have hrounds : u.length < maxRounds := by
              unfold maxRounds
              omega
            have hin : 0 + u.length < sizeArgBuff := by
              unfold sizeArgBuff
              omega
            unfold copyArgsSystem
            rw [ha, ok_bind, if_pos hz, dstrlen_eq hu hrounds, ok_bind, Nat.zero_add,
              if_neg (by omega), dstrcpy_eq hu hrounds hin]
            simp only
            rw [ok_bind, Chars.store_eq (show u.length < sizeArgBuff by omega), ok_bind,
              update_place_end]
            exact ih (by omega) hus fun v hv => hlen v (List.mem_cons_of_mem _ hv)

theorem overlay_beyond {k : Fin n} (hk : s k = 0) (h : ∀ u ∈ ss, u.length ≤ k.val) :
    overlay s ss k = 0 := by
  induction ss generalizing s with
  | nil => exact hk
  | cons u us ih =>
      refine ih ?_ fun v hv => h v (List.mem_cons_of_mem _ hv)
      have hu := h u (List.mem_cons_self ..)
      rcases Nat.lt_or_ge u.length k.val with hlt | hge
      · rw [place_beyond (by simp; omega), hk]
      · rw [place_at (Nat.zero_le _) (by simp; omega)]
        simp [show k.val = u.length by omega]

theorem overlay_append {ss' : List (List Byte)} :
    overlay s (ss ++ ss') = overlay (overlay s ss) ss' := by
  induction ss generalizing s with
  | nil => rfl
  | cons u us ih => exact ih

/-- The last string that is not empty. -/
theorem exists_last_nonempty (h : ∃ u ∈ ss, u ≠ []) :
    ∃ pre u post, ss = pre ++ u :: post ∧ u ≠ [] ∧ ∀ v ∈ post, v = [] := by
  induction ss with
  | nil => simp at h
  | cons v vs ih =>
      by_cases hvs : ∃ u ∈ vs, u ≠ []
      · obtain ⟨pre, u, post, rfl, hu, hpost⟩ := ih hvs
        exact ⟨v :: pre, u, post, rfl, hu, hpost⟩
      · push Not at hvs
        obtain ⟨u, hu, hne⟩ := h
        rcases List.mem_cons.mp hu with rfl | hu
        · exact ⟨[], u, vs, rfl, hne, hvs⟩
        · exact absurd (hvs u hu) hne

/-- Null characters leave an array of null characters as it is. -/
theorem place_zeros {bs : List Byte} (hz : ∀ k : Fin n, k.val < bs.length → s k = 0)
    (h : ∀ b ∈ bs, b = 0) : place s 0 bs = s := by
  funext k
  rcases Nat.lt_or_ge k.val bs.length with hk | hk
  · rw [place_at (Nat.zero_le _) hk, h _ (List.getElem_mem _), hz k hk]
  · exact place_beyond (by omega)

theorem overlay_empty (hz : ∀ k : Fin n, k.val < 1 → s k = 0) (h : ∀ u ∈ ss, u = []) :
    overlay s ss = s := by
  induction ss generalizing s with
  | nil => rfl
  | cons u us ih =>
      obtain rfl : u = [] := h u (List.mem_cons_self ..)
      have hone : place s 0 ([] ++ [0]) = s := place_zeros hz (by simp)
      rw [overlay, hone]
      exact ih hz fun v hv => h v (List.mem_cons_of_mem _ hv)

/-- If the strings come out back to back, then nothing stands before the last one that is not
empty, whose last character is at the index `p`. -/
theorem overlay_pre {pre post : List (List Byte)}
    (heq : ∀ k : Fin n, k.val < 100 →
      overlay s (pre ++ u :: post) k = place s 0 (backToBack (pre ++ u :: post)) k)
    (hz : ∀ k : Fin n, k.val < 100 → s k = 0) (hn : 100 ≤ n) (hnull : ∀ b ∈ u, b ≠ 0)
    (hlen : (backToBack (pre ++ u :: post)).length ≤ 100) (hu : u ≠ [])
    (hpost : ∀ v ∈ post, v = []) : pre = [] := by
  have hpos : 0 < u.length := List.length_pos_iff.mpr hu
  obtain ⟨p, hp⟩ : ∃ p, p = (backToBack pre).length + u.length - 1 := ⟨_, rfl⟩
  rw [backToBack_append, backToBack_cons] at heq hlen
  simp only [List.length_append, List.length_cons] at hlen
  have hpn : p < n := by omega
  -- the last character is there in the string of all
  have hchar : overlay s (pre ++ u :: post) ⟨p, hpn⟩ ≠ 0 := by
    rw [heq ⟨p, hpn⟩ (show p < 100 by omega), place_at (Nat.zero_le _) (by simp; omega),
      List.getElem_append_right (by simp; omega), List.getElem_append_left (by simp; omega)]
    exact hnull _ (List.getElem_mem _)
  obtain ⟨v, hv, hlt⟩ : ∃ v ∈ pre ++ u :: post, p < v.length := by
    by_contra hall
    push Not at hall
    exact hchar (overlay_beyond (hz ⟨p, hpn⟩ (show p < 100 by omega)) hall)
  rcases List.mem_append.mp hv with hv | hv
  · have := length_lt_backToBack hv
    omega
  · rcases List.mem_cons.mp hv with rfl | hv
    · cases pre with
      | nil => rfl
      | cons w pre =>
          rw [backToBack_cons, List.length_append, List.length_cons] at hp
          omega
    · rw [hpost v hv] at hlt
      exact absurd hlt (Nat.not_lt_zero p)

/-- Strings that are put at the same place come out back to back only if there is nothing to
separate. -/
theorem overlay_only
    (heq : ∀ k : Fin n, k.val < 100 → overlay s ss k = place s 0 (backToBack ss) k)
    (hz : ∀ k : Fin n, k.val < 100 → s k = 0) (hn : 100 ≤ n)
    (hnull : ∀ u ∈ ss, ∀ b ∈ u, b ≠ 0) (hlen : (backToBack ss).length ≤ 100) :
    ss.length ≤ 1 ∨ ∀ u ∈ ss, u = [] := by
  by_contra hnot
  push Not at hnot
  obtain ⟨hmany, hne⟩ := hnot
  obtain ⟨pre, u, post, rfl, hu, hpost⟩ := exists_last_nonempty hne
  have hunull := hnull u (by simp)
  obtain rfl := overlay_pre heq hz hn hunull hlen hu hpost
  -- the last string is empty, and ends the buffer at once
  have hpost' : post ≠ [] := by
    rintro rfl
    simp at hmany
  have hlast : post.getLast hpost' = [] := hpost _ (List.getLast_mem hpost')
  have hzero : overlay s ([] ++ u :: post) ⟨0, by omega⟩ = 0 := by
    rw [← List.dropLast_concat_getLast hpost', hlast, List.nil_append, ← List.cons_append,
      overlay_append, overlay, overlay, place_at (Nat.zero_le _) (by simp)]
    rfl
  rw [heq _ (Nat.zero_lt_succ 99), List.nil_append, backToBack_cons,
    place_at (Nat.zero_le _) (by simp)] at hzero
  have hpos : 0 < u.length := List.length_pos_iff.mpr hu
  simp only [Nat.sub_zero] at hzero
  rw [List.getElem_append_left hpos] at hzero
  exact hunull _ (List.getElem_mem _) hzero

theorem overlay_eq (h : ss.length ≤ 1 ∨ ∀ u ∈ ss, u = [])
    (hz : ∀ k : Fin n, k.val < 100 → s k = 0) (hlen : (backToBack ss).length ≤ 100) :
    overlay s ss = place s 0 (backToBack ss) := by
  rcases h with h | h
  · match ss, h with
    | [], _ => rfl
    | [u], _ => simp [overlay, backToBack]
  · rw [overlay_empty (fun k hk => hz k (by omega)) h, place_zeros]
    · exact fun k hk => hz k (by omega)
    · intro b hb
      obtain ⟨u, hu, hbu⟩ := List.mem_flatMap.mp hb
      rw [h u hu] at hbu
      simpa using hbu

/-! ### Both modes -/

/-- The first argument word, in memory that is read as it is. -/
def firstWord (mem : Bytes) (trapArgs : Word) : Word :=
  mem trapArgs ++ mem (trapArgs + 1) ++ mem (trapArgs + 2) ++ mem (trapArgs + 3)

theorem word_firstWord (h : 4 ≤ n) :
    (bcopy mem trapArgs : Chars n).word 0 = .ok (firstWord mem trapArgs) := by
  unfold Chars.word
  rw [Chars.load_eq (by omega), ok_bind, Chars.load_eq (by omega), ok_bind,
    Chars.load_eq (by omega), ok_bind, Chars.load_eq (by omega), ok_bind]
  simp [bcopy, firstWord]
  rfl

/-- `TrapPrintfHandler` sees the same argument words and the same format, the caller's string cut
to 79 characters, in both modes, and leaves that string as it is. -/
def PrintfAgrees (mem : Bytes) (trapArgs : Word) (l : PrintfArrays) (s : List Byte) : Prop :=
  ∃ args user system mem',
    memoryCopyUserToSystem (identity mem) trapArgs l.args 0 40 = .ok args ∧
      args = bcopy mem trapArgs ∧
      userFormat (identity mem) args l.formatstr = .ok user ∧
      systemFormat mem args l.formatstr = .ok (system, mem') ∧
      StringAt user 0 (s.take 79) ∧ StringAt system 0 (s.take 79) ∧
      HasString (identity mem') (firstWord mem trapArgs) s

theorem printfAgrees_iff {l : PrintfArrays} {s : List Byte}
    (hs : HasString (identity mem) (firstWord mem trapArgs) s) :
    PrintfAgrees mem trapArgs l s ↔ (s ++ [0]).take 80 <+: l.formatstr.rest 0 := by
  have hargs : memoryCopyUserToSystem (identity mem) trapArgs l.args 0 40 =
      .ok (bcopy mem trapArgs) := by
    rw [memoryCopyUserToSystem_eq (by decide), readable_identity]
  have hword : (bcopy mem trapArgs : Chars 40).word 0 = .ok (firstWord mem trapArgs) :=
    word_firstWord (by decide)
  rw [← overwrite_iff (show 80 - 1 < 80 by decide) (by decide) hs]
  constructor
  · rintro ⟨args, user, system, mem', -, rfl, -, e, -, hsystem, hmem⟩
    rw [systemFormat_eq hword] at e
    cases e
    exact ⟨hsystem, hmem⟩
  · rintro ⟨hsystem, hmem⟩
    refine ⟨_, _, _, _, hargs, rfl, userFormat_eq hword, systemFormat_eq hword, ?_, hsystem, hmem⟩
    rw [hs.fetched, Chars.length_rest]
    exact stringAt_cut hs.nonzero (by decide)

/-- `TrapProcessCreateHandler` hands on the same name and the same argument buffer, all strings
with their null characters back to back, in both modes, and leaves the caller's strings as they
are. -/
def CreateAgrees (mem : Bytes) (trapArgs : Word) (l : CreateArrays) (name : List Byte)
    (ss : List (List Byte)) : Prop :=
  ∃ user system mem',
    trapProcessCreateUser (identity mem) trapArgs l = .ok user ∧
      trapProcessCreateSystem mem trapArgs l = .ok (system, mem') ∧
      StringAt user.name 0 (name.take 99) ∧ StringAt system.name 0 (name.take 99) ∧
      user.allargs = system.allargs ∧ backToBack ss <+: user.allargs.rest 0 ∧
      HasString (identity mem') (firstWord mem trapArgs) name ∧
      List.Forall₂ (HasString (identity mem')) (argVector (bcopy mem trapArgs) 11 0) ss

theorem received_identity {l : CreateArrays} :
    received (identity mem) trapArgs l = bcopy mem trapArgs := readable_identity

theorem programName_eq : programName (bcopy mem trapArgs) = firstWord mem trapArgs :=
  Except.ok.inj (word_programName.symm.trans (word_firstWord (by decide)))

/-- What a user process hands on. -/
theorem createUser_eq {l : CreateArrays}
    (hs : List.Forall₂ (HasString (identity mem)) (argVector (bcopy mem trapArgs) 11 0) ss)
    (hlen : (backToBack ss).length ≤ 100) :
    trapProcessCreateUser (identity mem) trapArgs l =
      .ok ⟨Function.update (place (cleared l.allargs) 0 (backToBack ss)) ⟨1023, by decide⟩ 0,
        handedName (identity mem) (firstWord mem trapArgs) l.name⟩ := by
  rw [← received_identity (l := l)] at hs
  rw [createUser_strings hs hlen, received_identity, programName_eq]

/-- What is handed on in system mode, if the caller's strings stay as they are. -/
theorem createSystem_eq {l : CreateArrays}
    (hmem : poke mem (firstWord mem trapArgs) (untilNull (l.name.rest 0)) = mem)
    (hs : List.Forall₂ (HasString (identity mem)) (argVector (bcopy mem trapArgs) 11 0) ss)
    (hlen : (backToBack ss).length ≤ 100) :
    trapProcessCreateSystem mem trapArgs l =
      .ok (⟨Function.update (overlay (cleared l.allargs) ss) ⟨1023, by decide⟩ 0,
        Function.update l.name ⟨99, by decide⟩ 0⟩, mem) := by
  unfold trapProcessCreateSystem
  simp only
  rw [word_firstWord (by decide), ok_bind, dstrncpy_eq (by decide), ok_bind,
    Chars.store_eq (by decide), ok_bind, hmem,
    copyArgsSystem_eq (by decide) hs fun u hu => ((length_lt_backToBack hu).le).trans hlen,
    ok_bind, Chars.store_eq (by decide), ok_bind]
  rfl

/-- The memory and the name that system mode leaves. -/
theorem createSystem_inv {l : CreateArrays} {call : ForkCall} {mem' : Bytes}
    (e : trapProcessCreateSystem mem trapArgs l = .ok (call, mem')) :
    call.name = Function.update l.name ⟨99, by decide⟩ 0 ∧
      mem' = poke mem (firstWord mem trapArgs) (untilNull (l.name.rest 0)) := by
  unfold trapProcessCreateSystem at e
  simp only at e
  rw [word_firstWord (by decide), ok_bind, dstrncpy_eq (by decide), ok_bind,
    Chars.store_eq (by decide), ok_bind] at e
  cases hc : copyArgsSystem (poke mem (firstWord mem trapArgs) (untilNull (l.name.rest 0)))
      (bcopy mem trapArgs) 11 0 (cleared l.allargs) with
  | error e' =>
      rw [hc] at e
      cases e
  | ok allargs =>
      rw [hc, ok_bind, Chars.store_eq (by decide), ok_bind] at e
      cases e
      exact ⟨rfl, rfl⟩

theorem createAgrees_iff {l : CreateArrays} {name : List Byte}
    (hname : HasString (identity mem) (firstWord mem trapArgs) name)
    (hs : List.Forall₂ (HasString (identity mem)) (argVector (bcopy mem trapArgs) 11 0) ss)
    (hlen : (backToBack ss).length ≤ 100) :
    CreateAgrees mem trapArgs l name ss ↔
      (name ++ [0]).take 100 <+: l.name.rest 0 ∧ (ss.length ≤ 1 ∨ ∀ u ∈ ss, u = []) := by
  have hz : ∀ k : Fin sizeArgBuff, k.val < 100 → cleared l.allargs k = 0 := fun k hk => if_pos hk
  have huser := createUser_eq (l := l) hs hlen
  have hover := overwrite_iff (s := l.name) (show 100 - 1 < 100 by decide) (by decide) hname
  constructor
  · rintro ⟨user, system, mem', eu, es, -, hsystem, hall, -, hmem, -⟩
    obtain ⟨hn, hm⟩ := createSystem_inv es
    rw [hn] at hsystem
    rw [hm] at hmem
    have hpre := hover.mp ⟨hsystem, hmem⟩
    rw [huser] at eu
    rw [createSystem_eq (poke_held hname hpre) hs hlen] at es
    cases eu
    cases es
    refine ⟨hpre, overlay_only ?_ hz (by decide) (nonzero_of_strings hs) hlen⟩
    intro k hk
    have hne : k ≠ ⟨1023, by decide⟩ := Fin.ne_of_lt (show k.val < 1023 by omega)
    have hat := congrFun hall k
    simp only at hat
    rw [Function.update_of_ne hne, Function.update_of_ne hne] at hat
    exact hat.symm
  · rintro ⟨hpre, hss⟩
    obtain ⟨hsystem, -⟩ := hover.mpr hpre
    have hsys := createSystem_eq (l := l) (poke_held hname hpre) hs hlen
    rw [overlay_eq hss hz hlen] at hsys
    refine ⟨_, _, _, huser, hsys, ?_, hsystem, rfl, ?_, hname, hs⟩
    · simp only [handedName]
      rw [hname.fetched, Chars.length_rest]
      exact stringAt_cut hname.nonzero (by decide)
    · rw [List.prefix_iff_getElem]
      have hle : 100 < sizeArgBuff := by decide
      refine ⟨by rw [Chars.length_rest]; omega, fun m hm => ?_⟩
      have hne : (⟨m, by omega⟩ : Fin sizeArgBuff) ≠ ⟨1023, by decide⟩ :=
        Fin.ne_of_lt (show m < 1023 by omega)
      simp only [Chars.rest, List.drop_zero, List.getElem_ofFn]
      rw [Function.update_of_ne hne, place_at (Nat.zero_le _) hm]
      rfl

/-- Both modes see the same arguments if and only if the arrays of the handlers held the strings
already and there is nothing to separate. -/
theorem traps_agree_iff (mem : Bytes) (trapArgs trapArgs' : Word) (l : PrintfArrays)
    (l' : CreateArrays) (format name : List Byte) (ss : List (List Byte))
    (hformat : HasString (identity mem) (firstWord mem trapArgs) format)
    (hname : HasString (identity mem) (firstWord mem trapArgs') name)
    (hs : List.Forall₂ (HasString (identity mem)) (argVector (bcopy mem trapArgs') 11 0) ss)
    (hlen : (backToBack ss).length ≤ 100) :
    (PrintfAgrees mem trapArgs l format ↔ (format ++ [0]).take 80 <+: l.formatstr.rest 0) ∧
      (CreateAgrees mem trapArgs' l' name ss ↔
        (name ++ [0]).take 100 <+: l'.name.rest 0 ∧ (ss.length ≤ 1 ∨ ∀ u ∈ ss, u = [])) :=
  ⟨printfAgrees_iff hformat, createAgrees_iff hname hs hlen⟩

/-- A memory that starts with these bytes, and is zero elsewhere. -/
def bytes (bs : List Byte) : Bytes := fun a => (bs[a.toNat]?).getD 0

/-- One argument `a`, that both arrays held. -/
theorem traps_agree_held :
    (PrintfAgrees (bytes [0, 0, 0, 8, 0, 0, 0, 0, 97]) 0 ⟨fun _ => 0, fun _ => 0, fun _ => 0⟩ [97] ↔
        ([97, 0] : List Byte) <+: (show Chars 80 from fun _ => 0).rest 0) ∧
      (CreateAgrees (bytes [0, 0, 0, 8, 0, 0, 0, 0, 97]) 0
          ⟨fun _ => 0, fun i => if i = 0 then 97 else 0, fun _ => 0⟩ [97] [[97]] ↔
        ([97, 0] : List Byte) <+: (show Chars 100 from fun i => if i = 0 then 97 else 0).rest 0 ∧
          ([[97]].length ≤ 1 ∨ ∀ u ∈ ([[97]] : List (List Byte)), u = [])) := by
  have ha : HasString (identity (bytes [0, 0, 0, 8, 0, 0, 0, 0, 97]))
      (firstWord (bytes [0, 0, 0, 8, 0, 0, 0, 0, 97]) 0) [97] :=
    ⟨by decide, rfl, rfl, trivial⟩
  have hv : argVector (bcopy (bytes [0, 0, 0, 8, 0, 0, 0, 0, 97]) 0) 11 0 =
      [firstWord (bytes [0, 0, 0, 8, 0, 0, 0, 0, 97]) 0] := by decide
  exact traps_agree_iff _ 0 0 ⟨fun _ => 0, fun _ => 0, fun _ => 0⟩
    ⟨fun _ => 0, fun i => if i = 0 then 97 else 0, fun _ => 0⟩ [97] [97] [[97]] ha ha
    (hv ▸ .cons ha .nil) (by decide)

/-- A format that its array did not hold, and two arguments of which the array held the first. -/
theorem traps_disagree :
    ¬ PrintfAgrees (bytes [0, 0, 0, 8, 0, 0, 0, 0, 97]) 0 ⟨fun _ => 0, fun _ => 0, fun _ => 0⟩
        [97] ∧
      ¬ CreateAgrees (bytes [0, 0, 0, 12, 0, 0, 0, 12, 0, 0, 0, 0, 97]) 0
        ⟨fun _ => 0, fun i => if i = 0 then 97 else 0, fun _ => 0⟩ [97] [[97], [97]] := by
  have ha : HasString (identity (bytes [0, 0, 0, 8, 0, 0, 0, 0, 97]))
      (firstWord (bytes [0, 0, 0, 8, 0, 0, 0, 0, 97]) 0) [97] :=
    ⟨by decide, rfl, rfl, trivial⟩
  have hb : HasString (identity (bytes [0, 0, 0, 12, 0, 0, 0, 12, 0, 0, 0, 0, 97]))
      (firstWord (bytes [0, 0, 0, 12, 0, 0, 0, 12, 0, 0, 0, 0, 97]) 0) [97] :=
    ⟨by decide, rfl, rfl, trivial⟩
  have hv : argVector (bcopy (bytes [0, 0, 0, 12, 0, 0, 0, 12, 0, 0, 0, 0, 97]) 0) 11 0 =
      [firstWord (bytes [0, 0, 0, 12, 0, 0, 0, 12, 0, 0, 0, 0, 97]) 0,
        firstWord (bytes [0, 0, 0, 12, 0, 0, 0, 12, 0, 0, 0, 0, 97]) 0] := by decide
  constructor
  · rw [printfAgrees_iff ha]
    decide
  · rw [createAgrees_iff hb (hv ▸ .cons hb (.cons hb .nil)) (by decide)]
    decide

end DlxOs.Traps
