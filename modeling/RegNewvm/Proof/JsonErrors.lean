import RegNewvm.Proof.JsonOptions

/-!
# Errors of the decoder

Every error that the decoder dies with names a place in the text (`decode_error_located`).  A
decoder that may go less deep reads the same texts, or names the depth (`decode_shallower`).
-/

namespace RegNewvm.JsonPP

open Outcome Reader

variable {perl : Interpreter} {coder : Coder} {len n : ℕ} {r : List Char}

/-! ## Places -/

/-- The text that is left is no longer than the whole text. -/
def Left (len : ℕ) (r : List Char) : Prop := r.length ≤ len

/-- The error names a place in the text. -/
def Located (len : ℕ) (failure : Failure) : Prop := failure.offset ≤ len

theorem offset_le (hr : Left len r) : offset len r ≤ len := by
  unfold Left at hr
  unfold offset
  split_ifs with h
  · exact Nat.le_refl _
  · have := List.length_pos_iff.2 h
    omega

theorem Left.tail {c : Char} (hr : Left len (c :: r)) : Left len r :=
  (Nat.le_succ _).trans hr

theorem Left.drop (hr : Left len r) (k : ℕ) : Left len (r.drop k) :=
  (List.length_drop ▸ Nat.sub_le _ _).trans hr

theorem Left.dropWhile (hr : Left len r) (p : Char → Bool) : Left len (r.dropWhile p) :=
  (List.length_dropWhile_le p r).trans hr

/-- The reader names a place in the text when it fails. -/
def Placed {α : Type} (len : ℕ) (x : Except Failure (α × List Char)) : Prop :=
  Ends (fun p => Left len p.2) (Located len) x

/-- A slash that starts no comment. -/
theorem white_slash (hline : ∀ s, r = '/' :: s → False) (hblock : ∀ s, r = '*' :: s → False) :
    white coder len ('/' :: r) = .error { error := malformed, offset := offset len r - 1 } := by
  rw [white.eq_def]
  refine (if_neg (by decide)).trans ((if_pos rfl).trans ?_)
  split
  · exact (hline _ rfl).elim
  · exact (hblock _ rfl).elim
  · rfl

theorem noBlank_cons {c : Char} (hspace : ¬ c ≤ ' ') (hslash : c ≠ '/')
    (hhash : ¬ (coder.relaxed ∧ c = '#')) : NoBlank coder.relaxed (c :: r) := by
  rintro _ ⟨⟩
  exact ⟨Char.not_le.1 hspace, hslash, hhash⟩

theorem white_ends (coder : Coder) (hr : Left len r) :
    Ends (Left len) (Located len) (white coder len r) := by
  revert hr
  refine white.induct coder
    (fun r => Left len r → Ends (Left len) (Located len) (white coder len r))
    (fun r => Left len r → Ends (Left len) (Located len) (blockComment coder len r))
    (fun ends r => Left len r → Ends (Left len) (Located len) (lineComment coder len ends r))
    ?_ ?_ ?_ ?_ ?_ ?_ ?_ ?_ ?_ ?_ ?_ ?_ ?_ r
  · intro hr
    rwa [white]
  · intro c r hc ih hr
    rw [white_space hc]
    exact ih hr.tail
  · intro r _ ih hr
    rw [white_line]
    exact ih hr.tail.tail
  · intro r _ ih hr
    rw [white_block]
    exact ih hr.tail.tail
  · intro r hline hblock _ hr
    rw [white_slash hline hblock]
    exact (Nat.sub_le _ _).trans (offset_le hr.tail)
  · intro c r _ _ hhash ih hr
    obtain ⟨hrelaxed, rfl⟩ := hhash
    rw [white_hash hrelaxed]
    exact ih hr.tail
  · intro c r hspace hslash hhash hr
    rwa [white_noBlank (noBlank_cons hspace hslash hhash)]
  · intro _
    rw [blockComment]
    exact Nat.le_refl len
  · intro r ih hr
    rw [blockComment]
    exact ih hr.tail.tail
  · intro c r hc ih hr
    rw [blockComment.eq_3 _ _ _ _ hc]
    exact ih hr.tail
  · intro ends hr
    rwa [lineComment]
  · intro ends c r hc ih hr
    rw [lineComment, if_pos hc]
    exact ih hr.tail
  · intro ends c r hc ih hr
    rw [lineComment, if_neg hc]
    exact ih hr.tail

theorem stringLoop_placed (bound : Char) (waiting : Option ℕ) (s : List Char) (hr : Left len r) :
    Placed len (stringLoop len bound waiting s r) := by
  fun_induction stringLoop len bound waiting s r with
  | case1 => exact Nat.le_refl len
  | case2 => exact offset_le hr.tail
  | case3 => exact hr.tail
  | case4 => exact Nat.sub_le _ _
  | case5 _ _ _ _ _ _ _ ih => exact ih hr.tail.tail
  | case6 => exact offset_le (hr.tail.tail.dropWhile isHex)
  | case7 _ _ _ _ _ _ _ _ _ _ _ _ ih => exact ih (hr.drop 6)
  | case8 => exact offset_le (hr.drop 5)
  | case9 _ _ _ _ _ _ _ _ _ _ _ _ _ ih => exact ih (hr.drop 6)
  | case10 => exact offset_le (hr.drop 5)
  | case11 _ _ _ _ _ _ _ _ _ _ _ _ _ _ ih => exact ih (hr.drop 6)
  | case12 => exact offset_le (hr.tail.tail.dropWhile isHex)
  | case13 => exact (Nat.sub_le _ _).trans (offset_le hr.tail)
  | case14 => exact (Nat.sub_le _ _).trans (offset_le hr)
  | case15 _ _ _ _ _ _ _ ih => exact ih hr.tail

theorem string_placed (coder : Coder) (hr : Left len r) : Placed len (string coder len r) := by
  cases r with
  | nil => exact Nat.le_refl len
  | cons c r =>
    show Placed len (if isQuote coder c then _ else _)
    split
    · exact (stringLoop_placed c none [] hr.tail).bind fun _ hs => hs
    · exact offset_le hr

/-- The place of an error in `word`: behind the characters that are not looked at again. -/
theorem offset_word_le (hr : Left len r) :
    offset len r + (if String.ofList (r.take 4) = "fals" then 3 else 0) - 1 ≤ len := by
  have hoffset := offset_le hr
  split_ifs with hfals
  · have htake : (r.take 4).length = 4 := by
      rw [← String.toList_ofList (l := r.take 4), hfals]
      rfl
    rw [List.length_take] at htake
    unfold Left at hr
    unfold offset
    rw [if_neg (by rintro rfl; simp at htake)]
    omega
  · omega

theorem word_placed (hr : Left len r) : Placed len (word len r) := by
  unfold word
  dsimp only
  by_cases htrue : String.ofList (r.take 4) = "true"
  · rw [if_pos htrue]
    exact hr.drop 4
  rw [if_neg htrue]
  by_cases hnull : String.ofList (r.take 4) = "null"
  · rw [if_pos hnull]
    exact hr.drop 4
  rw [if_neg hnull]
  by_cases hfalse : String.ofList (r.take 4) = "fals" ∧ (r.drop 4).head? = some 'e'
  · rw [if_pos hfalse]
    exact hr.drop 5
  · rw [if_neg hfalse]
    exact offset_word_le hr

/-! ## Numerals -/

theorem digits_placed (error : String) (n : List Char) (hr : Left len r) :
    Placed len (digits perl len error n r) := by
  unfold digits
  split_ifs
  · exact hr.dropWhile perl.digit
  · exact offset_le hr

theorem integer_placed (hr : Left len r) : Placed len (integer perl len r) := by
  unfold integer
  split
  · exact digits_placed _ _ hr.tail
  · exact hr.dropWhile perl.digit

theorem fraction_placed (n : List Char) (hr : Left len r) : Placed len (fraction perl len n r) := by
  unfold fraction
  split
  · exact digits_placed _ _ hr.tail
  · exact hr

theorem left_expSign (hr : Left len r) : Left len (expSign r).2 := by
  unfold expSign
  split
  · exact hr.tail
  · exact hr.tail
  · exact hr

theorem exponent_placed (n : List Char) (hr : Left len r) : Placed len (exponent perl len n r) := by
  unfold exponent
  split
  · exact hr
  · split_ifs
    · exact digits_placed _ _ (left_expSign hr.tail)
    · exact hr

theorem number_placed (hr : Left len r) : Placed len (number perl len r) := by
  unfold number
  refine Ends.bind (P := fun _ => True) ?_ fun _ _ => ?_
  · unfold leadingZero
    split
    · split_ifs
      · exact offset_le hr
      · trivial
    · trivial
  · refine (integer_placed hr).bind fun i hi => ?_
    refine (fraction_placed i.1 hi).bind fun f hf => ?_
    exact (exponent_placed f.1 hf).bind fun x hx => hx

/-! ## Values -/

section Values

variable {read : List Char → Except Failure (Data × List Char)}
  (hread : ∀ r, Left len r → Placed len (read r))

include hread

theorem element_placed (a : List Data) (hr : Left len r) : Placed len (element read a r) :=
  (hread r hr).bind fun _ hv => hv

theorem member_placed (o : List (String × Data)) (hr : Left len r) :
    Placed len (member coder len read o r) := by
  unfold member
  refine (string_placed coder hr).bind fun k hk => ?_
  refine (white_ends coder hk).bind fun r hr => ?_
  dsimp only
  split
  · exact (hread _ hr.tail).bind fun _ hv => hv
  · exact (Nat.sub_le _ _).trans (offset_le hr)

theorem array_placed (hr : Left len r) : Placed len (array coder len read r) := by
  refine (bracketed_ends (fun r hr => white_ends coder hr) (fun _ _ hr => hr.tail)
    (fun r hr => offset_le hr) (fun a r hr => element_placed hread a hr) ?_).bind fun _ ha => ha
  exact List.drop_one ▸ hr.drop 1

theorem object_placed (hr : Left len r) : Placed len (object coder len read r) := by
  refine (bracketed_ends (fun r hr => white_ends coder hr) (fun _ _ hr => hr.tail)
    (fun r hr => (Nat.sub_le _ _).trans (offset_le hr)) (fun o r hr => member_placed hread o hr)
    ?_).bind fun _ ho => ho
  exact List.drop_one ▸ hr.drop 1

end Values

theorem valueWith_placed {readArray readHash : List Char → Except Failure (Data × List Char)}
    (harray : ∀ r, Left len r → Placed len (readArray r))
    (hhash : ∀ r, Left len r → Placed len (readHash r)) (hr : Left len r) :
    Placed len (valueWith perl coder len readArray readHash r) := by
  refine (white_ends coder hr).bind fun r hr => ?_
  cases r with
  | nil => exact hr
  | cons c r =>
    show Placed len (if c = '\x7b' then _ else _)
    split_ifs
    · exact hhash _ hr
    · exact harray _ hr
    · exact (string_placed coder hr).bind fun _ hs => hs
    · exact number_placed hr
    · exact word_placed hr

theorem value_placed (hr : Left len r) : Placed len (value perl coder len n r) := by
  have hdeep (r : List Char) (hr : Left len r) : Placed len (tooDeep len r) := offset_le hr
  induction n generalizing r with
  | zero => exact valueWith_placed hdeep hdeep hr
  | succ n ih =>
    exact valueWith_placed (fun r hr => array_placed (fun r => ih) hr)
      (fun r hr => object_placed (fun r => ih) hr) hr

theorem garbage_located {d : Data} (hr : Left len r) :
    Ends (fun _ => True) (Located len) (garbage coder len d r) := by
  refine (white_ends coder hr).bind fun r hr => ?_
  split
  · trivial
  · trivial
  · exact offset_le hr

theorem ppDecodeJson_located (perl : Interpreter) (coder : Coder) (text : List Char) :
    Ends (fun _ => True) (Located text.length) (ppDecodeJson perl coder text) := by
  have htext : Left text.length text := Nat.le_refl _
  refine (white_ends coder htext).bind fun r hr => ?_
  refine (value_placed hr).bind fun read hread => ?_
  show Ends _ _ (if r = [] then _ else _)
  split_ifs
  · exact Nat.le_refl text.length
  · exact offset_le hread
  · exact garbage_located hread

/-- The error of the check of `$max_depth`. -/
def Nested (failure : Failure) : Prop :=
  ∃ offset, failure = { error := nestingLevel, offset }

section Congr

variable {coder' : Coder} (hrelaxed : coder.relaxed = coder'.relaxed)

include hrelaxed

theorem white_congr (r : List Char) : white coder len r = white coder' len r := by
  refine white.induct coder (fun r => white coder len r = white coder' len r)
    (fun r => blockComment coder len r = blockComment coder' len r)
    (fun ends r => lineComment coder len ends r = lineComment coder' len ends r)
    ?_ ?_ ?_ ?_ ?_ ?_ ?_ ?_ ?_ ?_ ?_ ?_ ?_ r
  · rw [white, white]
  · intro c r hc ih
    rw [white_space hc, white_space hc, ih]
  · intro r _ ih
    rw [white_line, white_line, ih]
  · intro r _ ih
    rw [white_block, white_block, ih]
  · intro r hline hblock _
    rw [white_slash hline hblock, white_slash hline hblock]
  · intro c r _ _ hhash ih
    obtain ⟨hcomment, rfl⟩ := hhash
    rw [white_hash hcomment, white_hash (hrelaxed ▸ hcomment), ih]
  · intro c r hspace hslash hhash
    have hstop := noBlank_cons (r := r) hspace hslash hhash
    rw [white_noBlank hstop, white_noBlank (hrelaxed ▸ hstop)]
  · rw [blockComment, blockComment]
  · intro r ih
    rw [blockComment, blockComment, ih]
  · intro c r hc ih
    rw [blockComment.eq_3 _ _ _ _ hc, blockComment.eq_3 _ _ _ _ hc, ih]
  · intro ends
    rw [lineComment, lineComment]
  · intro ends c r hc ih
    rw [lineComment, lineComment, if_pos hc, if_pos hc, ih]
  · intro ends c r hc ih
    rw [lineComment, lineComment, if_neg hc, if_neg hc, ih]

variable (hquote : coder.allowSinglequote = coder'.allowSinglequote)

include hquote

/-- The options that a value depends on. -/
theorem value_congr (r : List Char) : value perl coder len n r = value perl coder' len n r := by
  have hwhite : white coder len = white coder' len := funext (white_congr hrelaxed)
  have hisQuote : isQuote coder = isQuote coder' := by
    unfold isQuote
    rw [hquote]
  have hstring : string coder len = string coder' len := by
    funext r
    unfold string
    simp only [hisQuote]
  have hvalueWith : valueWith perl coder len = valueWith perl coder' len := by
    funext readArray readHash r
    unfold valueWith
    simp only [hwhite, hisQuote, hstring]
  induction n generalizing r with
  | zero => rw [value, value, hvalueWith]
  | succ n ih =>
    have hread : value perl coder len n = value perl coder' len n := funext ih
    have harray : array coder len (value perl coder len n) =
        array coder' len (value perl coder' len n) := by
      funext r
      unfold array
      rw [hwhite, hrelaxed, hread]
    have hobject : object coder len (value perl coder len n) =
        object coder' len (value perl coder' len n) := by
      funext r
      unfold object member
      rw [hwhite, hrelaxed, hread, hstring]
    rw [value, value, hvalueWith, harray, hobject]

end Congr

theorem valueWith_cut {E : Failure → Prop}
    {readArray readArray' readHash readHash' : List Char → Except Failure (Data × List Char)}
    (harray : ∀ r, Cut E (readArray r) (readArray' r))
    (hhash : ∀ r, Cut E (readHash r) (readHash' r)) (r : List Char) :
    Cut E (valueWith perl coder len readArray readHash r)
      (valueWith perl coder len readArray' readHash' r) := by
  refine Cut.bind (.refl _ _) fun r => ?_
  cases r with
  | nil => exact .refl _ _
  | cons c r =>
    show Cut E (if c = '\x7b' then _ else _) (if c = '\x7b' then _ else _)
    split_ifs
    · exact hhash _
    · exact harray _
    · exact .refl _ _
    · exact .refl _ _
    · exact .refl _ _

/-- With fewer levels a value is read in the same way, or is nested too deep. -/
theorem value_cut {k : ℕ} (h : k ≤ n) (r : List Char) :
    Cut Nested (value perl coder len k r) (value perl coder len n r) := by
  induction n generalizing k r with
  | zero =>
    rw [Nat.le_zero.1 h]
    exact .refl _ _
  | succ n ih =>
    cases k with
    | zero =>
      rw [value, value]
      have hdeep (x : Except Failure (Data × List Char)) (r : List Char) :
          Cut Nested (tooDeep len r) x := Or.inr ⟨_, rfl, _, rfl⟩
      exact valueWith_cut (fun r => hdeep _ r) (fun r => hdeep _ r) r
    | succ k =>
      rw [value, value]
      have hread (r : List Char) := ih (Nat.le_of_succ_le_succ h) r
      refine valueWith_cut (fun r => ?_) (fun r => ?_) r
      · refine Cut.bind (bracketed_cut (fun a r => ?_) _ _) fun _ => .refl _ _
        exact (hread r).bind fun _ => .refl _ _
      · refine Cut.bind (bracketed_cut (fun o r => ?_) _ _) fun _ => .refl _ _
        refine Cut.bind (.refl _ _) fun k => Cut.bind (.refl _ _) fun r => ?_
        dsimp only
        split
        · exact (hread _).bind fun _ => .refl _ _
        · exact .refl _ _

theorem ppDecodeJson_cut {k : ℕ} (h : k ≤ coder.maxDepth) (text : List Char) :
    Cut Nested (ppDecodeJson perl { coder with maxDepth := k } text)
      (ppDecodeJson perl coder text) := by
  have hwhite (r : List Char) :
      white { coder with maxDepth := k } text.length r = white coder text.length r :=
    white_congr (by rfl) r
  have hvalue (r : List Char) : value perl { coder with maxDepth := k } text.length k r =
      value perl coder text.length k r := value_congr (by rfl) (by rfl) r
  refine Cut.bind (Or.inl (hwhite text)) fun r => ?_
  refine Cut.bind (hvalue r ▸ value_cut h r) fun read => Or.inl ?_
  have hgarbage : garbage { coder with maxDepth := k } text.length read.1 read.2 =
      garbage coder text.length read.1 read.2 := by
    unfold garbage
    rw [hwhite]
  show (if r = [] then _ else if _ then _ else _) = _
  rw [hgarbage]

/-- With a smaller `max_depth` every text is decoded to the same data, or dies of the same error, or
is refused because of its levels. -/
theorem decode_shallower (perl : Interpreter) (coder : Coder) {k : ℕ} (h : k ≤ coder.maxDepth)
    (text : String) :
    decode perl { coder with maxDepth := k } text = decode perl coder text ∨
      ∃ offset, decode perl { coder with maxDepth := k } text =
        .error (decodeError text.toList { error := nestingLevel, offset }) := by
  unfold decode
  obtain hsame | ⟨_, hread, offset, rfl⟩ := ppDecodeJson_cut h text.toList
  · exact Or.inl (by rw [hsame])
  · exact Or.inr ⟨offset, by rw [hread]; rfl⟩

theorem decode_shallower_sample :
    decode .plain { maxDepth := 1 } "[[1,2],[]]" = decode .plain { maxDepth := 2 } "[[1,2],[]]" ∨
      ∃ offset, decode .plain { maxDepth := 1 } "[[1,2],[]]" =
        .error (decodeError "[[1,2],[]]".toList { error := nestingLevel, offset }) :=
  decode_shallower .plain { maxDepth := 2 } (by decide) "[[1,2],[]]"

end RegNewvm.JsonPP
