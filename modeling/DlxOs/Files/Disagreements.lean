import DlxOs.Files.LetterCase

/-!
# Calls on which the case of a letter tells

Where `isxdigit` takes a pair of characters in one of two texts only, one of the
calls stores a byte that the other does not, or reads the pair as a part of an
address. Counting the digits that are passed shows that the two calls never
deliver the same bytes and leave the file at the same place.
-/

namespace DlxOs.Files

variable {c c' d d' : Char} {l l' : List Char}

/-! ### Digits that are left and bytes -/

/-- The digits of a text. -/
def hexes (l : List Char) : ℕ := l.countP fun c => curdigit c < 16

theorem SameText.hexes (h : SameText l l') : hexes l = Files.hexes l' := by
  unfold Files.hexes
  induction h with
  | nil => rfl
  | cons hc h ih => rw [List.countP_cons, List.countP_cons, ih, hc.curdigit]

theorem hexes_cons_of_lt (hc : curdigit c < 16) (l : List Char) : hexes (c :: l) = hexes l + 1 := by
  rw [hexes, List.countP_cons_of_pos (by simpa using hc)]
  rfl

theorem hexes_cons_of_not_lt (hc : ¬ curdigit c < 16) (l : List Char) : hexes (c :: l) = hexes l := by
  rw [hexes, List.countP_cons_of_neg (by simpa using hc)]
  rfl

theorem toNat_le_of_le (h : c ≤ d) : c.toNat ≤ d.toNat := UInt32.le_iff_toNat_le.mp h

theorem curdigit_of_isxdigit (h : isxdigit c = true) : curdigit c < 16 := by
  simp only [isxdigit, Bool.or_eq_true, Bool.and_eq_true, decide_eq_true_eq] at h
  unfold curdigit
  obtain (h | h) | h := h
  · have := toNat_le_of_le h.2
    rw [if_pos h]
    simp only [Char.reduceToNat] at this ⊢
    omega
  · have := toNat_le_of_le h.2
    split
    · next h' =>
      have := toNat_le_of_le h'.2
      simp only [Char.reduceToNat] at this ⊢
      omega
    · rw [if_pos ⟨h.1, Char.le_trans h.2 (by decide : 'f' ≤ 'z')⟩]
      simp only [Char.reduceToNat] at this ⊢
      omega
  · obtain rfl : c = 'A' := Char.le_antisymm h.2 h.1
    decide

/-- Each byte takes two digits, and nothing else takes any. -/
theorem getBytes_hexes (l : List Char) :
    hexes l = 2 * (getBytes l).2.length + hexes (getBytes l).1 := by
  have hblank : ∀ {c : Char}, (decide (c = ' ') || decide (c = '\t')) = true → ¬ curdigit c < 16 := by
    intro c hc
    simp only [Bool.or_eq_true, decide_eq_true_eq] at hc
    rcases hc with rfl | rfl <;> decide
  induction l using getBytes.induct with
  | case1 => rfl
  | case2 c hc =>
    rw [getBytes, if_pos hc, hexes_cons_of_not_lt]
    · rfl
    · simp only [Bool.or_eq_true, decide_eq_true_eq] at hc
      obtain (rfl | rfl) | rfl := hc <;> decide
  | case3 c hc =>
    rw [getBytes, if_neg hc, List.length_nil, Nat.mul_zero, Nat.zero_add]
  | case4 c d l hc ih => rw [getBytes, if_pos hc, hexes_cons_of_not_lt (hblank hc), ih]
  | case5 d l hc =>
    rw [getBytes, if_neg hc, if_pos rfl, hexes_cons_of_not_lt (by decide), List.length_nil,
      Nat.mul_zero, Nat.zero_add]
  | case6 c d l hc hn hx rest bytes hl ih =>
    obtain ⟨hcx, hdx⟩ := Bool.and_eq_true_iff.mp hx
    rw [hl] at ih
    rw [getBytes, if_neg hc, if_neg hn, if_pos hx, hl, hexes_cons_of_lt (curdigit_of_isxdigit hcx),
      hexes_cons_of_lt (curdigit_of_isxdigit hdx), ih]
    simp only [List.length_cons]
    omega
  | case7 c d l hc hn hx =>
    rw [getBytes, if_neg hc, if_neg hn, if_neg hx, List.length_nil, Nat.mul_zero, Nat.zero_add]

theorem suffix_hexes {rest : List Char} (h : rest <:+ l) : hexes rest ≤ hexes l :=
  h.sublist.countP_le

namespace Progress

variable {p p' : Progress}

/-- The digits that are left, and those of the bytes. -/
def weight (p : Progress) : ℕ := hexes p.lpos + 2 * p.bytes.length

theorem Like.weight (h : p.Like p') : p.weight = p'.weight := by
  unfold Progress.weight
  rw [SameText.hexes h.lpos, h.bytes]

theorem line_weight (p : Progress) : p.line.2.weight = p.weight := by
  rw [line_eq]
  split
  · next hhead =>
    obtain ⟨l, hl⟩ := List.head?_eq_some_iff.mp hhead
    have hbytes := getBytes_hexes l
    unfold weight
    simp only [hl, List.drop_one, List.tail_cons, List.length_append]
    rw [hexes_cons_of_not_lt (by decide), hbytes]
    omega
  · rfl

theorem readAddress_weight (p : Progress) : p.readAddress.weight ≤ p.weight :=
  Nat.add_le_add_right (suffix_hexes (dstrtol_passes p.lpos).suffix) _

theorem round_weight_le (p : Progress) : p.round.2.weight ≤ p.weight := by
  rw [round_eq]
  split
  · exact le_rfl
  · split
    · exact (line_weight p).le
    · split
      · exact le_rfl
      · exact (line_weight _).le.trans (readAddress_weight p)

/-- Once a byte is stored, no address is read. -/
theorem round_weight_eq (h : p.bytes ≠ []) : p.round.2.weight = p.weight := by
  rw [round_eq, if_pos h]
  split
  · rfl
  · split
    · exact line_weight p
    · rfl

theorem loop_weight_le (fuel : ℕ) (p : Progress) : (loop fuel p).weight ≤ p.weight := by
  induction fuel generalizing p with
  | zero => exact le_rfl
  | succ fuel ih =>
    rw [loop]
    simp only
    split
    · exact (ih _).trans (round_weight_le p)
    · exact round_weight_le p

theorem Moves.bytes_ne_nil (h : p.Moves p') (hp : p.bytes ≠ []) : p'.bytes ≠ [] := by
  obtain ⟨new, hnew, -⟩ := h
  rw [hnew]
  exact List.append_ne_nil_of_left_ne_nil hp new

theorem loop_weight_eq (fuel : ℕ) (h : p.bytes ≠ []) : (loop fuel p).weight = p.weight := by
  induction fuel generalizing p with
  | zero => rfl
  | succ fuel ih =>
    rw [loop]
    simp only
    split
    · rw [ih ((round_moves p).bytes_ne_nil h), round_weight_eq h]
    · exact round_weight_eq h

end Progress

/-! ### Where two texts part -/

/-- The second text is left at two digits that the first has taken for a byte. -/
def Stopped (l l' : List Char) : Prop :=
  ∃ c d m, (getBytes l').1 = c :: d :: m ∧ curdigit c < 16 ∧ curdigit d < 16 ∧
    (getBytes l).1.length < (c :: d :: m).length ∧ (getBytes l').2.length < (getBytes l).2.length

theorem SameLetter.symm (h : SameLetter c c') : SameLetter c' c := by
  rcases h with rfl | ⟨i, hi | hi⟩
  · exact .inl rfl
  · exact .inr ⟨i, .inr ⟨hi.2, hi.1⟩⟩
  · exact .inr ⟨i, .inl ⟨hi.2, hi.1⟩⟩

theorem getBytes_accepted (hc : ¬ (decide (c = ' ') || decide (c = '\t')) = true) (hn : c ≠ '\n')
    (hx : (isxdigit c && isxdigit d) = true) (l : List Char) : getBytes (c :: d :: l) =
      ((getBytes l).1, BitVec.ofNat 8 (getxvalue c * 16 + getxvalue d) :: (getBytes l).2) := by
  rw [getBytes, if_neg hc, if_neg hn, if_pos hx]

theorem stopped_here (hcc : SameLetter c c') (hdd : SameLetter d d')
    (hc : ¬ (decide (c = ' ') || decide (c = '\t')) = true) (hn : c ≠ '\n')
    (hx : (isxdigit c && isxdigit d) = true) (hx' : ¬ (isxdigit c' && isxdigit d') = true)
    (hlen : l.length = l'.length) : Stopped (c :: d :: l) (c' :: d' :: l') := by
  obtain ⟨hcx, hdx⟩ := Bool.and_eq_true_iff.mp hx
  have hrest : getBytes (c' :: d' :: l') = (c' :: d' :: l', []) := by
    rw [getBytes, if_neg (hcc.blank ▸ hc), if_neg (hcc.newline ▸ hn), if_neg hx']
  have hle := (getBytes_passes l).suffix.length_le
  refine ⟨c', d', l', ?_, ?_, ?_, ?_, ?_⟩
  · rw [hrest]
  · rw [← hcc.curdigit]
    exact curdigit_of_isxdigit hcx
  · rw [← hdd.curdigit]
    exact curdigit_of_isxdigit hdx
  · rw [getBytes_accepted hc hn hx]
    simp only [List.length_cons]
    omega
  · rw [hrest, getBytes_accepted hc hn hx]
    exact Nat.zero_lt_succ _

/-- If `isxdigit` differs on a pair, one of the texts is left there. -/
theorem stopped_of_not_agree (h : SameText l l') (disagree : ¬ BytesAgree l l') :
    Stopped l l' ∨ Stopped l' l := by
  induction l using getBytes.induct generalizing l' with
  | case1 => exact absurd trivial disagree
  | case2 c hc => exact absurd trivial disagree
  | case3 c hc => exact absurd trivial disagree
  | case4 c d l hc ih =>
    obtain ⟨c', m, hcc, hm, rfl⟩ := List.forall₂_cons_left_iff.mp h
    obtain ⟨d', l', hdd, hl, rfl⟩ := List.forall₂_cons_left_iff.mp hm
    rw [BytesAgree, if_pos hc] at disagree
    have hc' : (decide (c' = ' ') || decide (c' = '\t')) = true := hcc.blank ▸ hc
    have e : getBytes (c :: d :: l) = getBytes (d :: l) := by rw [getBytes, if_pos hc]
    have e' : getBytes (c' :: d' :: l') = getBytes (d' :: l') := by rw [getBytes, if_pos hc']
    unfold Stopped
    rw [e, e']
    exact ih hm disagree
  | case5 d l hc =>
    obtain ⟨c', m, hcc, hm, rfl⟩ := List.forall₂_cons_left_iff.mp h
    obtain ⟨d', l', hdd, hl, rfl⟩ := List.forall₂_cons_left_iff.mp hm
    rw [BytesAgree, if_neg hc, if_pos rfl] at disagree
    exact absurd trivial disagree
  | case6 c d l hc hn hx rest bytes hl ih =>
    obtain ⟨c', m, hcc, hm, rfl⟩ := List.forall₂_cons_left_iff.mp h
    obtain ⟨d', l', hdd, hl', rfl⟩ := List.forall₂_cons_left_iff.mp hm
    by_cases hx' : (isxdigit c' && isxdigit d') = true
    · rw [BytesAgree, if_neg hc, if_neg hn, hx, hx'] at disagree
      have hl'' : ¬ BytesAgree l l' := fun agree => disagree ⟨rfl, fun _ => agree⟩
      have hc' : ¬ (decide (c' = ' ') || decide (c' = '\t')) = true := hcc.blank ▸ hc
      have hn' : c' ≠ '\n' := by
        rw [Ne, ← hcc.newline]
        exact hn
      unfold Stopped
      rw [getBytes_accepted hc hn hx, getBytes_accepted hc' hn' hx']
      simp only [List.length_cons, Nat.add_lt_add_iff_right]
      simpa only [Stopped, List.length_cons] using ih hl' hl''
    · exact .inl (stopped_here hcc hdd hc hn hx hx' hl'.length_eq)
  | case7 c d l hc hn hx =>
    obtain ⟨c', m, hcc, hm, rfl⟩ := List.forall₂_cons_left_iff.mp h
    obtain ⟨d', l', hdd, hl', rfl⟩ := List.forall₂_cons_left_iff.mp hm
    have hc' : ¬ (decide (c' = ' ') || decide (c' = '\t')) = true := hcc.blank ▸ hc
    have hn' : c' ≠ '\n' := by
      rw [Ne, ← hcc.newline]
      exact hn
    have hx' : (isxdigit c' && isxdigit d') = true := by
      by_contra hx'
      rw [Bool.not_eq_true] at hx hx'
      rw [BytesAgree, if_neg hc, if_neg hn, hx, hx'] at disagree
      exact disagree ⟨rfl, fun h => absurd h (by decide)⟩
    exact .inr (stopped_here hcc.symm hdd.symm hc' hn' hx' hx hl'.length_eq.symm)

theorem SameText.suffix {m m' : List Char} (h : SameText l l') (hm : m <:+ l) (hm' : m' <:+ l')
    (hlen : m.length = m'.length) : SameText m m' := by
  rw [List.suffix_iff_eq_drop.mp hm, List.suffix_iff_eq_drop.mp hm', hlen, h.length_eq]
  exact List.forall₂_drop _ h

namespace Progress

variable {p p' : Progress}

/-- At a digit the loop ends, or reads it as a part of an address. -/
theorem stays_or_lighter (fuel : ℕ) (hl : p.lpos = c :: l) (hc : curdigit c < 16) :
    loop fuel p = p ∨ (loop fuel p).weight < p.weight := by
  cases fuel with
  | zero => exact .inl rfl
  | succ fuel =>
    have hhead : p.lpos.head? ≠ some ':' := by
      rw [hl, List.head?_cons]
      intro e
      rw [Option.some.inj e] at hc
      exact absurd hc (by decide)
    have hlighter : p.readAddress.weight < p.weight := by
      have hspace := isspace_of_curdigit hc
      have hminus := ne_minus_of_curdigit hc
      have hrest : p.readAddress.lpos <:+ l := by
        unfold Progress.readAddress
        rw [hl, dstrtol_digits (by decide) le_rfl hspace hminus, digits, if_pos hc]
        exact (digits_passes _ l).suffix
      have hle := suffix_hexes hrest
      unfold weight
      rw [hl, hexes_cons_of_lt hc]
      exact Nat.add_lt_add_right (Nat.lt_succ_of_le hle) _
    have hround : p.round = (false, p) ∨ p.round.2.weight < p.weight := by
      rw [round_eq, if_neg hhead]
      split
      · exact .inl rfl
      · split
        · exact .inl rfl
        · rw [line_weight]
          exact .inr hlighter
    rcases hround with hround | hround
    · rw [loop, hround]
      exact .inl rfl
    · refine .inr ?_
      rw [loop]
      simp only
      split
      · exact (loop_weight_le fuel _).trans_lt hround
      · exact hround

/-- After a pair that only the first has taken, the two do not meet again. -/
theorem diverge (h : p.Like p') (hhead : p.lpos.head? = some ':')
    (stop : Stopped (p.lpos.drop 1) (p'.lpos.drop 1)) (fuel : ℕ)
    (hbytes : (loop fuel p.line.2).bytes = (loop fuel p'.line.2).bytes)
    (hlen : (loop fuel p.line.2).lpos.length = (loop fuel p'.line.2).lpos.length) : False := by
  have hhead' : p'.lpos.head? = some ':' := h.head ▸ hhead
  obtain ⟨c, d, m, hm, hc, -, hshort, hmore⟩ := stop
  have hlpos : p.line.2.lpos = (getBytes (p.lpos.drop 1)).1 := by rw [line_eq, if_pos hhead]
  have hlpos' : p'.line.2.lpos = c :: d :: m := by rw [line_eq, if_pos hhead', hm]
  have hne : p.line.2.bytes ≠ [] := by
    rw [line_eq, if_pos hhead]
    refine List.append_ne_nil_of_right_ne_nil _ ?_
    exact List.ne_nil_of_length_pos (Nat.zero_lt_of_lt hmore)
  have hmoves := loop_moves fuel p.line.2
  rcases stays_or_lighter fuel hlpos' hc with hstays | hlighter
  · have hspent : (loop fuel p.line.2).lpos.length ≤ p.line.2.lpos.length := by
      obtain ⟨new, -, hpasses⟩ := hmoves
      exact hpasses.suffix.length_le
    rw [hstays, hlpos'] at hlen
    rw [hlpos] at hspent
    omega
  · have hsame : SameText (loop fuel p.line.2).lpos (loop fuel p'.line.2).lpos := by
      obtain ⟨_, -, hpasses⟩ := (line_moves p).trans hmoves
      obtain ⟨_, -, hpasses'⟩ := (line_moves p').trans (loop_moves fuel p'.line.2)
      exact h.lpos.suffix hpasses.suffix hpasses'.suffix hlen
    have hweight : (loop fuel p.line.2).weight = (loop fuel p'.line.2).weight := by
      unfold weight
      rw [hsame.hexes, hbytes]
    rw [loop_weight_eq fuel hne, line_weight, h.weight, ← line_weight p'] at hweight
    omega

theorem Like.symm (h : p.Like p') : p'.Like p :=
  ⟨h.addr.symm, h.bytes.symm, h.lpos.flip.imp fun _ _ hc => SameLetter.symm hc⟩

theorem loop_more {fuel : ℕ} (h : p.round.1 = true) : loop (fuel + 1) p = loop fuel p.round.2 := by
  rw [loop]
  simp only [h, if_true]

/-- A round that does not agree is one of two lines that do not. -/
theorem line_of_not_agree (h : p.Like p') (disagree : ¬ p.RoundAgrees p') :
    ∃ r r' : Progress, p.round = r.line ∧ p'.round = r'.line ∧ r.Like r' ∧
      r.lpos.head? = some ':' ∧ ¬ BytesAgree (r.lpos.drop 1) (r'.lpos.drop 1) := by
  have hZ := h.lpos.dindex_none (m := 'Z') (by decide)
  have hcolon := h.lpos.dindex_none (m := ':') (by decide)
  unfold RoundAgrees at disagree
  simp only [Classical.not_imp] at disagree
  obtain ⟨hnoZ, hnocolon, hline⟩ := disagree
  have hgo : ¬ (dindex p.lpos 'Z' = none ∨ dindex p.lpos ':' = none) :=
    not_or.mpr ⟨hnoZ, hnocolon⟩
  rw [round_eq, round_eq, if_neg hgo, if_neg (mt (hZ.or hcolon).mpr hgo)]
  by_cases hhead : p.lpos.head? = some ':'
  · rw [if_pos hhead, LineAgrees, Classical.not_imp] at hline
    rw [if_pos hhead, if_pos (h.head ▸ hhead)]
    exact ⟨p, p', rfl, rfl, h, hline.1, hline.2⟩
  · have hhead' : ¬ p'.lpos.head? = some ':' := h.head ▸ hhead
    rw [if_neg hhead, Classical.not_imp, LineAgrees, Classical.not_imp] at hline
    obtain ⟨hbytes, hreadHead, hdis⟩ := hline
    rw [if_neg hhead, if_neg hhead', ← h.bytes, if_neg (not_not.mpr hbytes),
      if_neg (not_not.mpr hbytes)]
    exact ⟨_, _, rfl, rfl, h.readAddress, hreadHead, hdis⟩

/-- Where `isxdigit` differs on a pair, the loops end with other bytes or elsewhere. -/
theorem loop_differs {fuel : ℕ} (h : p.Like p') (disagree : ¬ LoopAgrees fuel p p')
    (hbytes : (loop fuel p).bytes = (loop fuel p').bytes)
    (hlen : (loop fuel p).lpos.length = (loop fuel p').lpos.length) : False := by
  induction fuel generalizing p p' with
  | zero => exact disagree trivial
  | succ fuel ih =>
    by_cases hround : p.RoundAgrees p'
    · obtain ⟨hmore, hlike⟩ := round_like h hround
      obtain ⟨hm, hrest⟩ : p.round.1 = true ∧ ¬ LoopAgrees fuel p.round.2 p'.round.2 := by
        rw [LoopAgrees, and_iff_right hround] at disagree
        exact Classical.not_imp.mp disagree
      rw [loop_more hm, loop_more (hmore ▸ hm)] at hbytes hlen
      exact ih hlike hrest hbytes hlen
    · obtain ⟨r, r', e, e', hlike, hhead, hdis⟩ := line_of_not_agree h hround
      have hhead' : r'.lpos.head? = some ':' := hlike.head ▸ hhead
      have hm : p.round.1 = true := by rw [e, line_eq, if_pos hhead]
      have hm' : p'.round.1 = true := by rw [e', line_eq, if_pos hhead']
      rw [loop_more hm, loop_more hm', e, e'] at hbytes hlen
      rcases stopped_of_not_agree (List.forall₂_drop 1 hlike.lpos) hdis with stop | stop
      · exact diverge hlike hhead stop fuel hbytes hlen
      · exact diverge hlike.symm hhead' stop fuel hbytes.symm hlen.symm

end Progress

/-- Two calls deliver the same bytes and move on alike just when `isxdigit` says the same of each
pair that they test. -/
theorem finish_alike_iff {w w' : List Char} {addr : BitVec 32} (h : SameText w w') :
    (finish w addr).bytes = (finish w' addr).bytes ∧ advance w addr = advance w' addr ↔
      CallAgrees w w' addr := by
  constructor
  · rintro ⟨hbytes, hadvance⟩
    by_contra disagree
    have hmarked := marked_same h
    have hlen := hmarked.length_eq
    have hleft := length_marked w addr
    have hleft' := length_marked w' addr
    have hlpos : (finish w addr).lpos.length = (finish w' addr).lpos.length := by omega
    unfold finish at hbytes hlpos
    rw [← hlen] at hbytes hlpos
    have hlike : Progress.Like ⟨marked w, addr, []⟩ ⟨marked w', addr, []⟩ := ⟨rfl, rfl, hmarked⟩
    exact Progress.loop_differs hlike disagree hbytes hlpos
  · intro agree
    obtain ⟨hlike, hadvance⟩ := finish_like h agree
    exact ⟨hlike.bytes, hadvance⟩

end DlxOs.Files
