import RegNewvm.Model.JsonText
import Mathlib.Data.List.TakeWhile

/-!
# Blanks, strings, numerals and words

The readers below the level of containers against the grammar: each reads exactly the texts of its
kind (`white_ok`, `white_append`, `string_ok`, `string_append`, `number_ok`, `number_append`,
`word_ok`).
-/

namespace RegNewvm.JsonPP

open Reader

variable {perl : Interpreter} {coder : Coder} {len : ℕ}

/-! ## Blanks -/

theorem lineComment_append {ends : Char → Bool} {b r : List Char} {c : Char}
    (hb : ∀ x ∈ b, ends x = false) (hc : ends c) :
    lineComment coder len ends (b ++ c :: r) = white coder len r := by
  induction b with
  | nil => rw [List.nil_append, lineComment, if_pos hc]
  | cons x b ih =>
    obtain ⟨hx, hb⟩ := List.forall_mem_cons.1 hb
    rw [List.cons_append, lineComment, if_neg (by simp [hx]), ih hb]

theorem lineComment_nil {ends : Char → Bool} {b : List Char} (hb : ∀ x ∈ b, ends x = false) :
    lineComment coder len ends b = .ok [] := by
  induction b with
  | nil => rw [lineComment]
  | cons x b ih =>
    obtain ⟨hx, hb⟩ := List.forall_mem_cons.1 hb
    rw [lineComment, if_neg (by simp [hx]), ih hb]

/-- Every text is a comment to its end, or ends the comment somewhere. -/
theorem line_cases (ends : Char → Bool) (r : List Char) :
    (∀ x ∈ r, ends x = false) ∨
      ∃ b c s, r = b ++ c :: s ∧ (∀ x ∈ b, ends x = false) ∧ ends c := by
  induction r with
  | nil => exact Or.inl (by simp)
  | cons c r ih =>
    by_cases hc : ends c
    · exact Or.inr ⟨[], c, r, rfl, by simp, hc⟩
    · obtain h | ⟨b, d, s, rfl, hb, hd⟩ := ih
      · exact Or.inl (List.forall_mem_cons.2 ⟨by simpa using hc, h⟩)
      · exact Or.inr ⟨c :: b, d, s, rfl, List.forall_mem_cons.2 ⟨by simpa using hc, hb⟩, hd⟩

theorem blockComment_append {b r : List Char} (hb : ¬ ['*', '/'] <:+: b) :
    blockComment coder len (b ++ '*' :: '/' :: r) = white coder len r := by
  induction b with
  | nil => rw [List.nil_append, blockComment]
  | cons x b ih =>
    have hcut : ∀ s, x = '*' → b ++ '*' :: '/' :: r = '/' :: s → False := by
      rintro s rfl hs
      cases b with
      | nil => cases hs
      | cons y b =>
        obtain rfl : y = '/' := (List.cons.inj hs).1
        exact hb ⟨[], b, rfl⟩
    rw [List.cons_append, blockComment.eq_3 _ _ _ _ hcut]
    exact ih fun h => hb (h.trans (List.suffix_cons x b).isInfix)

/-- Every text leaves the comment open, or closes it somewhere. -/
theorem block_cases (coder : Coder) (len : ℕ) (r : List Char) :
    (∃ failure, blockComment coder len r = .error failure) ∨
      ∃ b s, r = b ++ '*' :: '/' :: s ∧ ¬ ['*', '/'] <:+: b := by
  induction r with
  | nil => exact Or.inl ⟨_, by rw [blockComment]⟩
  | cons c r ih =>
    by_cases hclose : c = '*' ∧ ∃ s, r = '/' :: s
    · obtain ⟨rfl, s, rfl⟩ := hclose
      exact Or.inr ⟨[], s, rfl, by simp⟩
    · obtain ⟨failure, h⟩ | ⟨b, s, rfl, hb⟩ := ih
      · refine Or.inl ⟨failure, ?_⟩
        rw [blockComment.eq_3 _ _ _ _ fun s hc hs => hclose ⟨hc, s, hs⟩, h]
      · refine Or.inr ⟨c :: b, s, rfl, ?_⟩
        rw [List.infix_cons_iff, not_or]
        refine ⟨fun hpre => hclose ?_, hb⟩
        obtain ⟨hc, b', hb'⟩ := List.cons_prefix_cons.1 hpre
        exact ⟨hc.symm, b' ++ '*' :: '/' :: s, by rw [← hb']; rfl⟩

theorem white_space {c : Char} {r : List Char} (hc : c ≤ ' ') :
    white coder len (c :: r) = white coder len r := by
  rw [white.eq_def]
  exact if_pos hc

theorem white_line (r : List Char) :
    white coder len ('/' :: '/' :: r) =
      lineComment coder len (fun ch => ch = '\n' ∨ ch = '\r') r := by
  rw [white]
  rfl

theorem white_block (r : List Char) :
    white coder len ('/' :: '*' :: r) = blockComment coder len r := by
  rw [white]
  rfl

theorem white_hash {r : List Char} (h : coder.relaxed) :
    white coder len ('#' :: r) = lineComment coder len (fun ch => ch = '\n') r := by
  rw [white.eq_def]
  exact (if_neg (by decide)).trans ((if_neg (by decide)).trans (if_pos ⟨h, rfl⟩))

theorem white_noBlank {r : List Char} (h : NoBlank coder.relaxed r) :
    white coder len r = .ok r := by
  cases r with
  | nil => rw [white]
  | cons c r =>
    obtain ⟨hspace, hslash, hhash⟩ := h c rfl
    rw [white.eq_def]
    exact (if_neg (Char.not_le.2 hspace)).trans ((if_neg hslash).trans (if_neg hhash))

theorem eol_eq_false {b : List Char} (hb : '\n' ∉ b ∧ '\r' ∉ b) :
    ∀ c ∈ b, decide (c = '\n' ∨ c = '\r') = false := by
  intro c hc
  rw [decide_eq_false_iff_not, not_or]
  exact ⟨fun h => hb.1 (h ▸ hc), fun h => hb.2 (h ▸ hc)⟩

theorem newline_eq_false {b : List Char} (hb : '\n' ∉ b) : ∀ c ∈ b, decide (c = '\n') = false := by
  intro c hc
  rw [decide_eq_false_iff_not]
  exact fun h => hb (h ▸ hc)

/-- Blanks are skipped. -/
theorem white_append {w : List Char} (hw : Blank coder.relaxed w) (r : List Char) :
    white coder len (w ++ r) = white coder len r := by
  induction hw with
  | nil => rfl
  | space hc _ ih => rw [List.cons_append, white_space hc, ih]
  | @line b w c hb hc _ ih =>
    simp only [List.cons_append, List.append_assoc]
    rw [white_line, lineComment_append (eol_eq_false hb) (by simpa using hc), ih]
  | @block b w hb _ ih =>
    simp only [List.cons_append, List.append_assoc]
    rw [white_block, blockComment_append hb, ih]
  | @hash b w hrelaxed hb _ ih =>
    simp only [List.cons_append, List.append_assoc]
    rw [white_hash hrelaxed, lineComment_append (newline_eq_false hb) (by simp), ih]

theorem white_blank {w r : List Char} (hw : Blank coder.relaxed w) (hr : NoBlank coder.relaxed r) :
    white coder len (w ++ r) = .ok r := by
  rw [white_append hw, white_noBlank hr]

theorem white_lastBlank {r : List Char} (hr : LastBlank coder.relaxed r) :
    white coder len r = .ok [] := by
  cases hr with
  | blank hw => rw [← List.append_nil r, white_append hw, white]
  | line hw hb => rw [white_append hw, white_line, lineComment_nil (eol_eq_false hb)]
  | hash hw hrelaxed hb =>
    rw [white_append hw, white_hash hrelaxed, lineComment_nil (newline_eq_false hb)]

/-- What `white` has skipped when it leaves `r'`. -/
def Skipped (relaxed : Bool) (r r' : List Char) : Prop :=
  (∃ w, r = w ++ r' ∧ Blank relaxed w) ∨ (r' = [] ∧ LastBlank relaxed r)

theorem Skipped.append {relaxed : Bool} {v r r' : List Char}
    (hv : ∀ w, Blank relaxed w → Blank relaxed (v ++ w)) (h : Skipped relaxed r r') :
    Skipped relaxed (v ++ r) r' := by
  obtain ⟨w, rfl, hw⟩ | ⟨rfl, hr⟩ := h
  · exact Or.inl ⟨v ++ w, by simp, hv w hw⟩
  · refine Or.inr ⟨rfl, ?_⟩
    cases hr with
    | blank hw => exact .blank (hv _ hw)
    | line hw hb => rw [← List.append_assoc]; exact .line (hv _ hw) hb
    | hash hw hrelaxed hb => rw [← List.append_assoc]; exact .hash (hv _ hw) hrelaxed hb

theorem lineComment_ok {ends : Char → Bool} {r r' : List Char}
    (h : lineComment coder len ends r = .ok r') :
    (r' = [] ∧ ∀ x ∈ r, ends x = false) ∨
      ∃ b c s, r = b ++ c :: s ∧ (∀ x ∈ b, ends x = false) ∧ ends c ∧
        white coder len s = .ok r' := by
  obtain hr | ⟨b, c, s, rfl, hb, hc⟩ := line_cases ends r
  · rw [lineComment_nil hr] at h
    cases h
    exact Or.inl ⟨rfl, hr⟩
  · rw [lineComment_append hb hc] at h
    exact Or.inr ⟨b, c, s, rfl, hb, hc, h⟩

theorem blockComment_ok {r r' : List Char} (h : blockComment coder len r = .ok r') :
    ∃ b s, r = b ++ '*' :: '/' :: s ∧ ¬ ['*', '/'] <:+: b ∧ white coder len s = .ok r' := by
  obtain ⟨failure, hr⟩ | ⟨b, s, rfl, hb⟩ := block_cases coder len r
  · rw [hr] at h
    cases h
  · rw [blockComment_append hb] at h
    exact ⟨b, s, rfl, hb, h⟩

theorem not_mem_eol {b : List Char} (hb : ∀ c ∈ b, decide (c = '\n' ∨ c = '\r') = false) :
    '\n' ∉ b ∧ '\r' ∉ b :=
  ⟨fun h => by simpa using hb _ h, fun h => by simpa using hb _ h⟩

/-- What `white` can do with a character. -/
theorem white_cons_ok {c : Char} {r r' : List Char} (h : white coder len (c :: r) = .ok r') :
    (c ≤ ' ' ∧ white coder len r = .ok r') ∨
      (∃ s, c :: r = '/' :: '/' :: s ∧
        lineComment coder len (fun ch => ch = '\n' ∨ ch = '\r') s = .ok r') ∨
      (∃ s, c :: r = '/' :: '*' :: s ∧ blockComment coder len s = .ok r') ∨
      (coder.relaxed ∧ c = '#' ∧ lineComment coder len (fun ch => ch = '\n') r = .ok r') ∨
      (NoBlank coder.relaxed (c :: r) ∧ r' = c :: r) := by
  rw [white.eq_def] at h
  dsimp only at h
  split_ifs at h with hspace hslash hhash
  · exact Or.inl ⟨hspace, h⟩
  · subst hslash
    split at h
    · exact Or.inr (Or.inl ⟨_, rfl, h⟩)
    · exact Or.inr (Or.inr (Or.inl ⟨_, rfl, h⟩))
    · cases h
  · exact Or.inr (Or.inr (Or.inr (Or.inl ⟨hhash.1, hhash.2, h⟩)))
  · cases h
    refine Or.inr (Or.inr (Or.inr (Or.inr ⟨?_, rfl⟩)))
    rintro _ ⟨⟩
    exact ⟨Char.not_le.1 hspace, hslash, hhash⟩

/-- What `white` skips are blanks, up to something else or to the end of the text. -/
theorem white_ok {r r' : List Char} (h : white coder len r = .ok r') :
    NoBlank coder.relaxed r' ∧ Skipped coder.relaxed r r' := by
  induction hn : r.length using Nat.strong_induction_on generalizing r with
  | _ n ih =>
    -- after the blanks `v` the rest is skipped in the same way
    have hgo {v s : List Char} (hs : white coder len s = .ok r') (hr : r = v ++ s) (hne : v ≠ [])
        (hv : ∀ w, Blank coder.relaxed w → Blank coder.relaxed (v ++ w)) :
        NoBlank coder.relaxed r' ∧ Skipped coder.relaxed r r' := by
      have hpos := List.length_pos_iff.2 hne
      rw [hr, List.length_append] at hn
      obtain ⟨hstop, hskip⟩ := ih _ (by omega) hs rfl
      rw [hr]
      exact ⟨hstop, hskip.append hv⟩
    cases r with
    | nil =>
      rw [white] at h
      cases h
      exact ⟨nofun, Or.inl ⟨[], rfl, .nil⟩⟩
    | cons c r =>
      obtain ⟨hc, h₁⟩ | ⟨s, hcr, h₁⟩ | ⟨s, hcr, h₁⟩ | ⟨hrelaxed, rfl, h₁⟩ | ⟨hstop, rfl⟩ :=
        white_cons_ok h
      · exact hgo (v := [c]) h₁ rfl (by simp) fun w hw => .space hc hw
      · rw [hcr]
        rw [hcr] at hgo
        obtain ⟨rfl, hr⟩ | ⟨b, e, s, rfl, hb, he, hs⟩ := lineComment_ok h₁
        · exact ⟨nofun, Or.inr ⟨rfl, .line .nil (not_mem_eol hr)⟩⟩
        · refine hgo (v := '/' :: '/' :: (b ++ [e])) hs (by simp) (by simp) fun w hw => ?_
          simpa using Blank.line (not_mem_eol hb) (by simpa using he) hw
      · rw [hcr]
        rw [hcr] at hgo
        obtain ⟨b, s, rfl, hb, hs⟩ := blockComment_ok h₁
        refine hgo (v := '/' :: '*' :: (b ++ ['*', '/'])) hs (by simp) (by simp) fun w hw => ?_
        simpa using Blank.block hb hw
      · obtain ⟨rfl, hr⟩ | ⟨b, e, s, rfl, hb, he, hs⟩ := lineComment_ok h₁
        · exact ⟨nofun, Or.inr ⟨rfl, .hash .nil hrelaxed fun hmem => by simpa using hr _ hmem⟩⟩
        · obtain rfl : e = '\n' := by simpa using he
          refine hgo (v := '#' :: (b ++ ['\n'])) hs (by simp) (by simp) fun w hw => ?_
          simpa using Blank.hash hrelaxed (fun hmem => by simpa using hb _ hmem) hw
      · exact ⟨hstop, Or.inl ⟨[], rfl, .nil⟩⟩

/-! ## Strings -/

theorem stringLoop_append {bound : Char} (hbound : bound ≠ '\\') {waiting : Option ℕ}
    {t u : List Char} (ht : StringText bound waiting t u) (s r : List Char) :
    stringLoop len bound waiting s (t ++ bound :: r) = .ok (s ++ u, r) := by
  induction ht generalizing s with
  | nil =>
    rw [List.nil_append, stringLoop.eq_def]
    exact (if_pos rfl).trans (by simp)
  | @char waiting c t u hc hescape hcontrol hquote _ ih =>
    rw [List.cons_append, stringLoop.eq_def]
    refine (if_neg hc).trans ((if_neg hescape).trans ((if_neg ?_).trans ?_))
    · exact not_or.2 ⟨hcontrol, hquote⟩
    · rw [ih, List.append_assoc]
      rfl
  | @escape waiting e c t u he _ ih =>
    rw [List.cons_append, List.cons_append, stringLoop.eq_def]
    refine (if_neg (Ne.symm hbound)).trans ((if_pos rfl).trans ?_)
    simp only [he]
    rw [ih, List.append_assoc]
    rfl
  | @high waiting a b c d t u hhex hlow hhigh _ ih =>
    simp only [List.cons_append]
    rw [stringLoop.eq_def]
    refine (if_neg (Ne.symm hbound)).trans ((if_pos rfl).trans ?_)
    refine (if_pos rfl).trans ((if_neg (not_not.2 hhex)).trans ((if_pos ⟨hlow, hhigh⟩).trans ?_))
    exact ih s
  | @low high a b c d t u hhex hlow hhigh _ ih =>
    simp only [List.cons_append]
    rw [stringLoop.eq_def]
    refine (if_neg (Ne.symm hbound)).trans ((if_pos rfl).trans ?_)
    refine (if_pos rfl).trans ((if_neg (not_not.2 hhex)).trans ((if_neg (by omega)).trans ?_))
    refine (if_pos ⟨hlow, hhigh⟩).trans ?_
    dsimp only
    rw [ih, List.append_assoc]
    rfl
  | @unicode a b c d t u hhex hu _ ih =>
    simp only [List.cons_append]
    rw [stringLoop.eq_def]
    refine (if_neg (Ne.symm hbound)).trans ((if_pos rfl).trans ?_)
    refine (if_pos rfl).trans ((if_neg (not_not.2 hhex)).trans ((if_neg (by omega)).trans ?_))
    refine (if_neg (by omega)).trans ((if_neg (by simp)).trans ?_)
    rw [ih, List.append_assoc]
    rfl

theorem stringLoop_ok {bound : Char} {waiting : Option ℕ} {s r s' r' : List Char}
    (h : stringLoop len bound waiting s r = .ok (s', r')) :
    ∃ t u, r = t ++ bound :: r' ∧ s' = s ++ u ∧ StringText bound waiting t u := by
  -- one more character of `s` before what the rest of the loop reads
  have hgo {s r v : List Char} {c : Char} {waiting : Option ℕ}
      (ih : ∃ t u, r = t ++ bound :: r' ∧ s' = s ++ [c] ++ u ∧ StringText bound waiting t u) :
      ∃ t u, v ++ r = v ++ t ++ bound :: r' ∧ s' = s ++ c :: u ∧ StringText bound waiting t u := by
    obtain ⟨t, u, rfl, rfl, ht⟩ := ih
    exact ⟨t, u, by simp, by simp, ht⟩
  fun_induction stringLoop len bound waiting s r with
  | case3 waiting s r hwaiting =>
    cases h
    obtain rfl : waiting = none := by simpa using hwaiting
    exact ⟨[], [], rfl, by simp, .nil⟩
  | case5 waiting s e r c he hbound ih =>
    obtain ⟨t, u, hr, hs, ht⟩ := hgo (v := ['\\', e]) (ih h)
    exact ⟨_, _, hr, hs, .escape he ht⟩
  | case7 waiting s a b c d r u hhex hu hbound _ ih =>
    obtain ⟨t, u, rfl, rfl, ht⟩ := ih h
    exact ⟨_, _, rfl, rfl, .high (not_not.1 hhex) hu.1 hu.2 ht⟩
  | case9 s a b c d r u hhex hu hlow high hbound _ ih =>
    obtain ⟨t, u, hr, hs, ht⟩ := hgo (v := ['\\', 'u', a, b, c, d]) (ih h)
    exact ⟨_, _, hr, hs, .low (not_not.1 hhex) hlow.1 hlow.2 ht⟩
  | case11 waiting s a b c d r u hhex hu hlow hwaiting hbound _ ih =>
    obtain rfl : waiting = none := by simpa using hwaiting
    obtain ⟨t, u, hr, hs, ht⟩ := hgo (v := ['\\', 'u', a, b, c, d]) (ih h)
    exact ⟨_, _, hr, hs, .unicode (not_not.1 hhex) (by omega) ht⟩
  | case15 waiting s c r hbound hescape hcontrol ih =>
    obtain ⟨t, u, hr, hs, ht⟩ := hgo (v := [c]) (ih h)
    exact ⟨_, _, hr, hs, .char hbound hescape (not_or.1 hcontrol).1 (not_or.1 hcontrol).2 ht⟩
  | _ => cases h

theorem ne_escape_of_isQuote {q : Char} (hq : isQuote coder q) : q ≠ '\\' := by
  obtain rfl | ⟨-, rfl⟩ := hq <;> decide

theorem string_append {t : List Char} {s : String} (ht : Quoted coder t s) (r : List Char) :
    string coder len (t ++ r) = .ok (s, r) := by
  obtain ⟨q, b, rfl, hq, hb⟩ := ht
  rw [List.cons_append, List.append_assoc, List.singleton_append, string, if_pos hq,
    stringLoop_append (ne_escape_of_isQuote hq) hb]
  show Except.ok (String.ofList ([] ++ s.toList), r) = _
  rw [List.nil_append, String.ofList_toList]

theorem string_ok {r r' : List Char} {s : String} (h : string coder len r = .ok (s, r')) :
    ∃ t, r = t ++ r' ∧ Quoted coder t s := by
  cases r with
  | nil => cases h
  | cons q r =>
    rw [string] at h
    split_ifs at h with hq
    obtain ⟨⟨s', r''⟩, hloop, h₁⟩ := bind_eq_ok.1 h
    obtain ⟨t, u, rfl, rfl, ht⟩ := stringLoop_ok hloop
    cases h₁
    exact ⟨q :: (t ++ [q]), by simp, q, t, rfl, hq, by simpa using ht⟩

/-! ## Numerals -/

/-- A text that does not start with a digit. -/
def NoDigit (perl : Interpreter) (r : List Char) : Prop := ∀ c ∈ r.head?, perl.digit c = false

theorem takeWhile_append_of_noDigit {ds r : List Char} (hds : ∀ c ∈ ds, perl.digit c)
    (hr : NoDigit perl r) :
    (ds ++ r).takeWhile perl.digit = ds ∧ (ds ++ r).dropWhile perl.digit = r := by
  rw [List.takeWhile_append_of_pos hds, List.dropWhile_append_of_pos hds]
  cases r with
  | nil => simp
  | cons c r => simp [hr c rfl]

theorem noDigit_dropWhile (r : List Char) : NoDigit perl (r.dropWhile perl.digit) := by
  intro c hc
  have h := List.head?_dropWhile_not perl.digit r
  rw [Option.mem_def.1 hc] at h
  exact h

theorem digits_append {error : String} {n ds r : List Char} (hds : Digits perl ds)
    (hr : NoDigit perl r) : digits perl len error n (ds ++ r) = .ok (n ++ ds, r) := by
  obtain ⟨hne, hall⟩ := hds
  obtain ⟨htake, hdrop⟩ := takeWhile_append_of_noDigit hall hr
  obtain ⟨c, ds, rfl⟩ := List.exists_cons_of_ne_nil hne
  rw [digits, htake, hdrop]
  exact if_pos (hall c List.mem_cons_self)

theorem digits_ok {error : String} {n r n' r' : List Char}
    (h : digits perl len error n r = .ok (n', r')) :
    ∃ ds, r = ds ++ r' ∧ n' = n ++ ds ∧ Digits perl ds ∧ NoDigit perl r' := by
  rw [digits] at h
  split_ifs at h with hhead
  cases h
  refine ⟨_, (List.takeWhile_append_dropWhile ..).symm, rfl, ⟨?_, ?_⟩, noDigit_dropWhile r⟩
  · cases r with
    | nil => cases hhead
    | cons c r =>
      have hc : perl.digit c = true := hhead
      simp [hc]
  · exact fun c hc => by simpa using List.mem_takeWhile_imp hc

theorem digit_of_isDigit {c : Char} (hc : c.isDigit) : perl.digit c := by
  have hlt : c.toNat < 256 := by
    have h9 : c.toNat ≤ 57 := by
      simp only [Char.isDigit, Bool.and_eq_true, decide_eq_true_eq, ge_iff_le] at hc
      exact hc.2
    omega
  rwa [perl.digit_latin c hlt]

theorem noDigit_of_latin {c : Char} {r : List Char} (hlt : c.toNat < 256) (hc : c.isDigit = false) :
    NoDigit perl (c :: r) := by
  rintro _ ⟨⟩
  rw [perl.digit_latin c hlt, hc]

theorem integer_append {i r : List Char} (hi : IntegerText perl i) (hr : NoDigit perl r) :
    integer perl len (i ++ r) = .ok (i, r) := by
  cases hi with
  | minus hds =>
    rw [List.cons_append, integer, digits_append hds hr]
    rfl
  | @plain c ds hc hds hzero =>
    have hminus : c ≠ '-' := by rintro rfl; cases hc
    have hall : ∀ d ∈ c :: ds, perl.digit d :=
      List.forall_mem_cons.2 ⟨digit_of_isDigit hc, hds⟩
    obtain ⟨htake, hdrop⟩ := takeWhile_append_of_noDigit hall hr
    rw [integer.eq_2 _ _ (c :: ds ++ r) fun s hs => hminus (List.cons.inj hs).1, htake, hdrop]

theorem fraction_append {n f r : List Char} (hf : FractionText perl f) (hr : NoDigit perl r)
    (hpoint : r.head? ≠ some '.') : fraction perl len n (f ++ r) = .ok (n ++ f, r) := by
  cases hf with
  | nil =>
    rw [List.nil_append, List.append_nil,
      fraction.eq_2 _ _ _ _ fun s hs => hpoint (by rw [hs]; rfl)]
  | point hds =>
    rw [List.cons_append, fraction, digits_append hds hr, List.append_assoc]
    rfl

theorem expSign_append {sign r : List Char} (hsign : sign = [] ∨ sign = ['+'] ∨ sign = ['-'])
    (hplus : r.head? ≠ some '+') (hminus : r.head? ≠ some '-') :
    expSign (sign ++ r) = (sign, r) := by
  obtain rfl | rfl | rfl := hsign
  · rw [List.nil_append]
    exact expSign.eq_3 _ (fun s hs => hplus (by rw [hs]; rfl)) fun s hs => hminus (by rw [hs]; rfl)
  · rfl
  · rfl

theorem expSign_eq (r : List Char) :
    r = (expSign r).1 ++ (expSign r).2 ∧
      ((expSign r).1 = [] ∨ (expSign r).1 = ['+'] ∨ (expSign r).1 = ['-']) := by
  fun_cases expSign r with
  | case1 r => exact ⟨rfl, Or.inr (Or.inl rfl)⟩
  | case2 r => exact ⟨rfl, Or.inr (Or.inr rfl)⟩
  | case3 r hplus hminus => exact ⟨rfl, Or.inl rfl⟩

theorem exponent_append {n x r : List Char} (hx : ExponentText perl x) (hr : NumeralEnd perl r) :
    exponent perl len n (x ++ r) = .ok (n ++ x, r) := by
  have hdigit : NoDigit perl r := fun c hc => (hr c hc).1
  cases hx with
  | nil =>
    cases r with
    | nil => rw [List.append_nil, List.append_nil, exponent]
    | cons c r =>
      obtain ⟨-, -, he, hE, -⟩ := hr c rfl
      rw [List.nil_append, List.append_nil, exponent]
      exact if_neg (not_or.2 ⟨he, hE⟩)
  | @exp e sign ds he hsign hds =>
    obtain ⟨c, ds, rfl⟩ := List.exists_cons_of_ne_nil hds.1
    have hc := hds.2 c List.mem_cons_self
    have hhead {x : Char} (hx : x.toNat < 256) (hx' : x.isDigit = false) :
        (c :: ds ++ r).head? ≠ some x := by
      rintro ⟨⟩
      rw [perl.digit_latin c hx, hx'] at hc
      cases hc
    rw [List.cons_append, exponent, if_pos he, List.append_assoc,
      expSign_append hsign (hhead (by decide) rfl) (hhead (by decide) rfl)]
    show digits perl len _ (n ++ e :: sign) (c :: ds ++ r) = _
    rw [digits_append hds hdigit, List.append_assoc]
    rfl

/-- `d` may not follow a leading zero. -/
def BadZero (d : Char) : Prop := d = 'x' ∨ d = 'X' ∨ ('0' ≤ d ∧ d ≤ '7')

theorem leadingZero_eq_ok {r : List Char} :
    leadingZero len r = .ok ⟨⟩ ↔ (r.head? = some '0' → ∀ d ∈ r.tail.head?, ¬ BadZero d) := by
  fun_cases leadingZero len r with
  | case1 d r h => exact iff_of_false nofun fun hall => hall rfl d rfl h
  | case2 d r h => exact iff_of_true rfl fun _ x hx => by cases hx; exact h
  | case3 r hr =>
    refine iff_of_true rfl fun hhead d hd => ?_
    obtain ⟨s, rfl⟩ := List.head?_eq_some_iff.1 hhead
    obtain ⟨s', hs'⟩ := List.head?_eq_some_iff.1 hd
    exact absurd (congrArg ('0' :: ·) hs') (hr d s')

theorem not_badZero_of_digit {d : Char} (hd : perl.digit d) (h : ¬ ('0' ≤ d ∧ d ≤ '7')) :
    ¬ BadZero d := by
  have hne {x : Char} (hx : x.toNat < 256) (hx' : x.isDigit = false) : d ≠ x := by
    rintro rfl
    rw [perl.digit_latin d hx, hx'] at hd
    cases hd
  exact not_or.2 ⟨hne (by decide) rfl, not_or.2 ⟨hne (by decide) rfl, h⟩⟩

theorem not_badZero_of_end {r : List Char} (hr : NumeralEnd perl r) :
    ∀ d ∈ r.head?, ¬ BadZero d := by
  intro d hd hbad
  obtain ⟨hdigit, -, -, -, hx, hX⟩ := hr d hd
  obtain h | h | ⟨h0, h7⟩ := hbad
  · exact hx h
  · exact hX h
  · have hisDigit : d.isDigit := by
      simp only [Char.isDigit, Bool.and_eq_true, decide_eq_true_eq, ge_iff_le]
      exact ⟨h0, UInt32.le_trans h7 (by decide)⟩
    rw [digit_of_isDigit hisDigit] at hdigit
    cases hdigit

/-- What follows the integer part is no digit. -/
theorem noDigit_fraction {f x r : List Char} (hf : FractionText perl f) (hx : ExponentText perl x)
    (hr : NumeralEnd perl r) :
    NoDigit perl (f ++ (x ++ r)) ∧ NoDigit perl (x ++ r) ∧ (x ++ r).head? ≠ some '.' ∧
      ∀ d ∈ (f ++ (x ++ r)).head?, ¬ BadZero d := by
  have hexp : NoDigit perl (x ++ r) ∧ (x ++ r).head? ≠ some '.' ∧
      ∀ d ∈ (x ++ r).head?, ¬ BadZero d := by
    cases hx with
    | nil => exact ⟨fun c hc => (hr c hc).1, fun h => (hr _ h).2.1 rfl, not_badZero_of_end hr⟩
    | exp he hsign hds =>
      obtain rfl | rfl := he
      · exact ⟨noDigit_of_latin (by decide) rfl, nofun, by rintro _ ⟨⟩; unfold BadZero; decide⟩
      · exact ⟨noDigit_of_latin (by decide) rfl, nofun, by rintro _ ⟨⟩; unfold BadZero; decide⟩
  cases hf with
  | nil => exact ⟨hexp.1, hexp⟩
  | point hds =>
    exact ⟨noDigit_of_latin (by decide) rfl, hexp.1, hexp.2.1,
      by rintro _ ⟨⟩; unfold BadZero; decide⟩

/-- A numeral is read to its end. -/
theorem number_append {t r : List Char} (ht : Numeral perl t) (hr : NumeralEnd perl r) :
    number perl len (t ++ r) = .ok (numeric perl t, r) := by
  obtain ⟨i, f, x, rfl, hi, hf, hx⟩ := ht
  obtain ⟨hfrac, hexp, hpoint, hbad⟩ := noDigit_fraction hf hx hr
  have hzero : leadingZero len (i ++ (f ++ (x ++ r))) = .ok ⟨⟩ := by
    rw [leadingZero_eq_ok]
    cases hi with
    | minus => nofun
    | @plain c ds hc hds hzero =>
      intro hhead d hd
      obtain rfl : c = '0' := Option.some.inj hhead
      cases ds with
      | nil => exact hbad d hd
      | cons d' ds =>
        obtain rfl : d' = d := Option.some.inj hd
        exact not_badZero_of_digit (hds _ List.mem_cons_self) (hzero rfl _ rfl)
  rw [number, List.append_assoc, List.append_assoc, hzero]
  show (integer perl len (i ++ (f ++ (x ++ r))) >>= _) = _
  rw [integer_append hi hfrac]
  show (fraction perl len i (f ++ (x ++ r)) >>= _) = _
  rw [fraction_append hf hexp hpoint]
  show (exponent perl len (i ++ f) (x ++ r) >>= _) = _
  rw [exponent_append hx hr, List.append_assoc]
  rfl

theorem integer_ok {r n r' : List Char} (hstart : NumeralStart r)
    (hzero : leadingZero len r = .ok ⟨⟩) (h : integer perl len r = .ok (n, r')) :
    r = n ++ r' ∧ IntegerText perl n ∧ NoDigit perl r' := by
  fun_cases integer perl len r with
  | case1 r =>
    obtain ⟨ds, rfl, rfl, hds, hr'⟩ := digits_ok h
    exact ⟨rfl, .minus hds, hr'⟩
  | case2 r hminus =>
    cases (integer.eq_2 perl len r hminus).symm.trans h
    obtain ⟨c, hc, hstart⟩ := hstart
    obtain ⟨s, rfl⟩ := List.head?_eq_some_iff.1 hc
    obtain hdigit | rfl := hstart
    · refine ⟨(List.takeWhile_append_dropWhile ..).symm, ?_, noDigit_dropWhile _⟩
      rw [List.takeWhile_cons_of_pos (digit_of_isDigit hdigit)]
      refine .plain hdigit (fun d hd => List.mem_takeWhile_imp hd) ?_
      rintro rfl d hd
      refine fun h07 => leadingZero_eq_ok.1 hzero rfl d ?_ (Or.inr (Or.inr h07))
      rw [List.head?_takeWhile, Option.mem_def, Option.filter_eq_some_iff] at hd
      exact hd.1
    · exact absurd rfl (hminus s)

theorem fraction_ok {n r n' r' : List Char} (hr : NoDigit perl r)
    (h : fraction perl len n r = .ok (n', r')) :
    ∃ f, r = f ++ r' ∧ n' = n ++ f ∧ FractionText perl f ∧ NoDigit perl r' := by
  fun_cases fraction perl len n r with
  | case1 r =>
    obtain ⟨ds, rfl, rfl, hds, hr'⟩ := digits_ok h
    exact ⟨'.' :: ds, rfl, by simp, .point hds, hr'⟩
  | case2 r hpoint =>
    cases (fraction.eq_2 perl len n r hpoint).symm.trans h
    exact ⟨[], rfl, by simp, .nil, hr⟩

theorem exponent_ok {n r n' r' : List Char} (hr : NoDigit perl r)
    (h : exponent perl len n r = .ok (n', r')) :
    ∃ x, r = x ++ r' ∧ n' = n ++ x ∧ ExponentText perl x ∧ NoDigit perl r' := by
  cases r with
  | nil =>
    cases h
    exact ⟨[], rfl, by simp, .nil, nofun⟩
  | cons e r =>
    rw [exponent] at h
    split_ifs at h with he
    · obtain ⟨hsplit, hsign⟩ := expSign_eq r
      generalize expSign r = read at h hsplit hsign
      obtain ⟨sign, r₁⟩ := read
      obtain ⟨ds, rfl, rfl, hds, hr'⟩ := digits_ok h
      exact ⟨e :: (sign ++ ds), by simp [hsplit], by simp, .exp he hsign hds, hr'⟩
    · cases h
      exact ⟨[], rfl, by simp, .nil, hr⟩

/-- What `number` reads is a numeral. -/
theorem number_ok {r r' : List Char} {d : Data} (hstart : NumeralStart r)
    (h : number perl len r = .ok (d, r')) :
    ∃ t, r = t ++ r' ∧ Numeral perl t ∧ d = numeric perl t ∧ NoDigit perl r' := by
  obtain ⟨⟨⟩, hzero, h₁⟩ := bind_eq_ok.1 h
  obtain ⟨⟨i, r₁⟩, hint, h₂⟩ := bind_eq_ok.1 h₁
  obtain ⟨⟨f, r₂⟩, hfrac, h₃⟩ := bind_eq_ok.1 h₂
  obtain ⟨⟨x, r₃⟩, hexp, h₄⟩ := bind_eq_ok.1 h₃
  cases h₄
  obtain ⟨rfl, hi, hr₁⟩ := integer_ok hstart hzero hint
  obtain ⟨f, rfl, rfl, hf, hr₂⟩ := fraction_ok hr₁ hfrac
  obtain ⟨x, rfl, rfl, hx, hr'⟩ := exponent_ok hr₂ hexp
  exact ⟨i ++ (f ++ x), by simp, ⟨i, f, x, rfl, hi, hf, hx⟩, by simp, hr'⟩

theorem Numeral.start {t : List Char} (ht : Numeral perl t) : NumeralStart t := by
  obtain ⟨i, f, x, rfl, hi, -, -⟩ := ht
  cases hi with
  | minus _ => exact ⟨'-', rfl, Or.inr rfl⟩
  | @plain c _ hc _ _ => exact ⟨c, rfl, Or.inl hc⟩

theorem not_numeralStart {c : Char} {s : List Char} (hdigit : c.isDigit = false)
    (hminus : c ≠ '-') :
    ¬ NumeralStart (c :: s) := by
  rintro ⟨_, ⟨⟩, h | h⟩
  · rw [hdigit] at h
    cases h
  · exact hminus h

/-! ## Words -/

theorem word_ok (perl : Interpreter) (coder : Coder) {r r' : List Char} {d : Data}
    (h : word len r = .ok (d, r')) :
    ∃ t, r = t ++ r' ∧ Scalar perl coder t d ∧ ¬ NumeralStart t := by
  have htake : r = r.take 4 ++ r.drop 4 := (List.take_append_drop 4 r).symm
  rw [word] at h
  dsimp only at h
  split_ifs at h with htrue hnull hfalse
  · cases h
    rw [← String.toList_inj, String.toList_ofList] at htrue
    exact ⟨_, htrue ▸ htake, .true, not_numeralStart rfl (by decide)⟩
  · cases h
    rw [← String.toList_inj, String.toList_ofList] at hnull
    exact ⟨_, hnull ▸ htake, .null, not_numeralStart rfl (by decide)⟩
  · cases h
    obtain ⟨hfals, hhead⟩ := hfalse
    rw [← String.toList_inj, String.toList_ofList] at hfals
    obtain ⟨s, hs⟩ := List.head?_eq_some_iff.1 hhead
    refine ⟨"false".toList, ?_, .false, not_numeralStart rfl (by decide)⟩
    rw [hfals, hs] at htake
    rw [htake]
    rfl

end RegNewvm.JsonPP
