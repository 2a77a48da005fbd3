import RegNewvm.Proof.JsonLexeme
import Mathlib.Tactic.FinCases

/-!
# The decoder reads exactly the documents

`decode_eq_ok_iff`: a text decodes to some data exactly when it is a document that stands for them.
Both directions go by induction on the number of levels of containers, with the library's rules for
lists between brackets at each level.
-/

namespace RegNewvm.JsonPP

open Reader

variable {perl : Interpreter} {coder : Coder} {len n : ℕ} {t r r' : List Char} {d : Data}

/-! ## First characters -/

theorem Blank.head {relaxed : Bool} {w : List Char} (hw : Blank relaxed w) :
    ∀ c ∈ w.head?, c ≤ ' ' ∨ c = '/' ∨ (relaxed ∧ c = '#') := by
  cases hw with
  | nil => nofun
  | space hc _ => rintro _ ⟨⟩; exact Or.inl hc
  | line _ _ _ => rintro _ ⟨⟩; exact Or.inr (Or.inl rfl)
  | block _ _ => rintro _ ⟨⟩; exact Or.inr (Or.inl rfl)
  | hash hrelaxed _ _ => rintro _ ⟨⟩; exact Or.inr (Or.inr ⟨hrelaxed, rfl⟩)

/-- Where no blank can start, none is skipped. -/
theorem Blank.eq_nil {relaxed : Bool} {w : List Char} (hw : Blank relaxed w)
    (h : NoBlank relaxed (w ++ r)) : w = [] := by
  cases w with
  | nil => rfl
  | cons c w =>
    obtain ⟨hspace, hslash, hhash⟩ := h c rfl
    obtain hc | hc | hc := hw.head c rfl
    · exact absurd hspace (Char.not_lt.2 hc)
    · exact absurd hc hslash
    · exact absurd hc hhash

theorem numeralEnd_of_latin {c : Char} (hlt : c.toNat < 256) (hdigit : c.isDigit = false)
    (hc : c ∉ ['.', 'e', 'E', 'x', 'X']) : NumeralEnd perl (c :: r) := by
  rintro _ ⟨⟩
  simp only [List.mem_cons, List.not_mem_nil, or_false, not_or] at hc
  exact ⟨by rw [perl.digit_latin c hlt, hdigit], hc⟩

theorem isDigit_range {c : Char} (hc : c.isDigit) : 48 ≤ c.toNat ∧ c.toNat ≤ 57 := by
  simp only [Char.isDigit, Bool.and_eq_true, decide_eq_true_eq, ge_iff_le] at hc
  exact hc

/-- The first character of a blank or of a comment. -/
def BlankStart (c : Char) : Prop := c ≤ ' ' ∨ c = '/' ∨ c = '#'

theorem Blank.start {relaxed : Bool} {w : List Char} (hw : Blank relaxed w) :
    ∀ c ∈ w.head?, BlankStart c :=
  fun c hc => (hw.head c hc).imp_right (Or.imp_right And.right)

theorem BlankStart.numeralEnd {c : Char} (hc : BlankStart c) : NumeralEnd perl (c :: r) := by
  obtain hc | rfl | rfl := hc
  · have h32 : c.toNat ≤ 32 := hc
    refine numeralEnd_of_latin (by omega) ?_ ?_
    · rw [Bool.eq_false_iff]
      intro hdigit
      have := isDigit_range hdigit
      omega
    · intro hmem
      fin_cases hmem <;> exact absurd hc (by decide)
  · exact numeralEnd_of_latin (by decide) rfl (by decide)
  · exact numeralEnd_of_latin (by decide) rfl (by decide)

/-- A numeral ends at a blank, at a bracket and at a comma. -/
theorem numeralEnd_blank {w : List Char} {c : Char} (hw : Blank coder.relaxed w)
    (hc : c ∈ [']', '\x7d', ',']) : NumeralEnd perl (w ++ c :: r) := by
  cases w with
  | nil =>
    fin_cases hc <;> exact numeralEnd_of_latin (by decide) rfl (by decide)
  | cons x w => exact (hw.start x rfl).numeralEnd

/-- No blank and no closing bracket. -/
def Starts (t : List Char) : Prop :=
  ∃ c s, t = c :: s ∧ ' ' < c ∧ c ∉ ['/', '#', ']', '\x7d']

theorem starts_of_isDigit {c : Char} (hc : c.isDigit) (s : List Char) : Starts (c :: s) := by
  refine ⟨c, s, rfl, ?_, ?_⟩
  · have := isDigit_range hc
    show (32 : ℕ) < c.toNat
    omega
  · intro hmem
    fin_cases hmem <;> cases hc

theorem Quoted.starts {s : String} (ht : Quoted coder t s) : Starts t := by
  obtain ⟨q, b, rfl, rfl | ⟨-, rfl⟩, -⟩ := ht
  · exact ⟨_, _, rfl, by decide, by decide⟩
  · exact ⟨_, _, rfl, by decide, by decide⟩

theorem Scalar.starts (ht : Scalar perl coder t d) : Starts t := by
  cases ht with
  | null => exact ⟨_, _, rfl, by decide, by decide⟩
  | true => exact ⟨_, _, rfl, by decide, by decide⟩
  | false => exact ⟨_, _, rfl, by decide, by decide⟩
  | numeral ht =>
    obtain ⟨i, f, x, rfl, hi, -, -⟩ := ht
    cases hi with
    | minus _ => exact ⟨_, _, rfl, by decide, by decide⟩
    | plain hc _ _ => exact starts_of_isDigit hc _
  | string ht => exact ht.starts

theorem Item.scalar (ht : Scalar perl coder t d) :
    Item perl coder n t d := by
  cases n with
  | zero => exact ht
  | succ n => exact Or.inl ht

theorem Item.starts (ht : Item perl coder n t d) : Starts t := by
  cases n with
  | zero => exact Scalar.starts ht
  | succ n =>
    obtain ht | ⟨u, a, rfl, -⟩ | ⟨u, o, rfl, -⟩ := ht
    · exact ht.starts
    · exact ⟨_, _, rfl, by decide, by decide⟩
    · exact ⟨_, _, rfl, by decide, by decide⟩

theorem Starts.noBlank {relaxed : Bool} (ht : Starts t) (r : List Char) :
    NoBlank relaxed (t ++ r) := by
  obtain ⟨c, s, rfl, hspace, hc⟩ := ht
  simp only [List.mem_cons, List.not_mem_nil, or_false, not_or] at hc
  rintro _ ⟨⟩
  exact ⟨hspace, hc.1, fun h => hc.2.1 h.2⟩

theorem Starts.ne_nil (ht : Starts t) : t ≠ [] := by
  obtain ⟨c, s, rfl, -⟩ := ht
  exact List.cons_ne_nil _ _

theorem Starts.head_ne {close : Char} (ht : Starts t) (hclose : close ∈ [']', '\x7d']) :
    t.head? ≠ some close := by
  obtain ⟨c, s, rfl, -, hc⟩ := ht
  rintro ⟨⟩
  exact hc (by simp only [List.mem_cons] at hclose ⊢; tauto)

/-- `]`, the closing brace and the comma are no blanks. -/
theorem noBlank_punctuation {relaxed : Bool} {c : Char} (hc : c ∈ [']', '\x7d', ',', ':']) :
    NoBlank relaxed (c :: r) := by
  rintro _ ⟨⟩
  fin_cases hc <;> exact ⟨by decide, by decide, fun h => absurd h.2 (by decide)⟩

/-! ## Blanks and punctuation -/

theorem white_split (h : white coder len r = .ok r') (hne : r' ≠ []) :
    ∃ w, r = w ++ r' ∧ Blank coder.relaxed w :=
  (white_ok h).2.resolve_right fun hr => hne hr.1

theorem white_skips : Skips (white coder len) (Blank coder.relaxed) (NoBlank coder.relaxed) where
  stop _ _ h := (white_ok h).1
  split _ _ := white_split
  append _ _ := white_blank

theorem punctuation {close : Char} (hclose : close ∈ [']', '\x7d']) (hne : ',' ≠ close) :
    Punctuation (Blank coder.relaxed) (NoBlank coder.relaxed) (NumeralEnd perl) close ',' := by
  have hmem {c : Char} (hc : c = close ∨ c = ',') : c ∈ [']', '\x7d', ','] := by
    obtain rfl | rfl := hc
    · exact List.mem_append_left [','] hclose
    · decide
  exact ⟨hne, fun c r hc => noBlank_punctuation (List.mem_append_left [':'] (hmem hc)),
    fun w c r hw hc => numeralEnd_blank hw (hmem hc)⟩

/-! ## Every document is read -/

section Complete

variable {readArray readHash : List Char → Except Failure (Data × List Char)}

theorem valueWith_cons {c : Char} (h : NoBlank coder.relaxed (c :: r)) :
    valueWith perl coder len readArray readHash (c :: r) =
      if c = '\x7b' then readHash (c :: r)
      else if c = '[' then readArray (c :: r)
      else if isQuote coder c then do
        let (s, r) ← string coder len (c :: r)
        return (.string s, r)
      else if c.isDigit ∨ c = '-' then number perl len (c :: r)
      else word len (c :: r) := by
  rw [valueWith, white_noBlank h]
  rfl

theorem valueWith_quoted {s : String} (ht : Quoted coder t s) :
    valueWith perl coder len readArray readHash (t ++ r) = .ok (.string s, r) := by
  have hread : string coder len (t ++ r) = .ok (s, r) := string_append ht r
  have hblank : NoBlank coder.relaxed (t ++ r) := ht.starts.noBlank r
  obtain ⟨q, b, rfl, hq, -⟩ := ht
  rw [List.cons_append] at hread hblank ⊢
  rw [valueWith_cons hblank, if_neg, if_neg, if_pos hq, hread]
  · rfl
  · obtain rfl | ⟨-, rfl⟩ := hq <;> decide
  · obtain rfl | ⟨-, rfl⟩ := hq <;> decide

theorem valueWith_numeral (ht : Numeral perl t) (hr : NumeralEnd perl r) :
    valueWith perl coder len readArray readHash (t ++ r) = .ok (numeric perl t, r) := by
  have hread : number perl len (t ++ r) = .ok (numeric perl t, r) := number_append ht hr
  have hscalar : Scalar perl coder t (numeric perl t) := .numeral ht
  have hblank : NoBlank coder.relaxed (t ++ r) := hscalar.starts.noBlank r
  obtain ⟨c, hc, hstart⟩ := ht.start
  obtain ⟨s, rfl⟩ := List.head?_eq_some_iff.1 hc
  have hne {x : Char} (hx : x.isDigit = false) (hx' : x ≠ '-') : c ≠ x := by
    rintro rfl
    obtain h | h := hstart
    · rw [hx] at h
      cases h
    · exact hx' h
  have hquote : ¬ isQuote coder c := by
    rintro (h | ⟨-, h⟩)
    · exact hne rfl (by decide) h
    · exact hne rfl (by decide) h
  rw [List.cons_append] at hread hblank ⊢
  rw [valueWith_cons hblank, if_neg (hne rfl (by decide)), if_neg (hne rfl (by decide)),
    if_neg hquote, if_pos hstart, hread]

theorem valueWith_word {c : Char} (h : NoBlank coder.relaxed (c :: r))
    (hc : c ∈ ['n', 't', 'f']) :
    valueWith perl coder len readArray readHash (c :: r) = word len (c :: r) := by
  have hquote : ¬ isQuote coder c := by
    rintro (rfl | ⟨-, rfl⟩) <;> exact absurd hc (by decide)
  rw [valueWith_cons h, if_neg, if_neg, if_neg hquote, if_neg]
  all_goals fin_cases hc <;> decide

theorem valueWith_scalar (ht : Scalar perl coder t d) (hr : NumeralStart t → NumeralEnd perl r) :
    valueWith perl coder len readArray readHash (t ++ r) = .ok (d, r) := by
  have hblank : NoBlank coder.relaxed (t ++ r) := ht.starts.noBlank r
  cases ht with
  | null => exact (valueWith_word hblank (by decide)).trans rfl
  | true => exact (valueWith_word hblank (by decide)).trans rfl
  | false => exact (valueWith_word hblank (by decide)).trans rfl
  | numeral ht => exact valueWith_numeral ht (hr ht.start)
  | string ht => exact valueWith_quoted ht

variable {read : List Char → Except Failure (Data × List Char)} {Value : List Char → Data → Prop}
  (hread : ∀ t d r, Value t d → (NumeralStart t → NumeralEnd perl r) → read (t ++ r) = .ok (d, r))
  (hskip : ∀ w r, Blank coder.relaxed w → read (w ++ r) = read r)
  (hstarts : ∀ t d, Value t d → Starts t)

include hread

theorem element_append {a a' : List Data} (ht : Element Value a t a') (hr : NumeralEnd perl r) :
    element read a (t ++ r) = .ok (a', r) := by
  obtain ⟨v, hv, rfl⟩ := ht
  rw [element, hread _ _ _ hv fun _ => hr]
  rfl

include hskip in
theorem member_append {o o' : List (String × Data)} (ht : Member coder Value o t o')
    (hr : NumeralEnd perl r) : member coder len read o (t ++ r) = .ok (o', r) := by
  obtain ⟨kt, w, w', vt, k, v, rfl, hk, hw, hw', hv, rfl⟩ := ht
  simp only [List.append_assoc, List.cons_append]
  rw [member, string_append hk]
  show (white coder len (w ++ ':' :: (w' ++ (vt ++ r))) >>= _) = _
  rw [white_blank hw (noBlank_punctuation (by simp))]
  show (read (w' ++ (vt ++ r)) >>= _) = _
  rw [hskip _ _ hw', hread _ _ _ hv fun _ => hr]
  rfl

include hstarts in
theorem element_complete : ItemComplete (element read) (NoBlank coder.relaxed) (NumeralEnd perl)
    (Element Value) ']' where
  read _ _ _ _ := element_append hread
  start a t a' r ht := by
    obtain ⟨v, hv, -⟩ := ht
    exact ⟨(hstarts _ _ hv).ne_nil, (hstarts _ _ hv).noBlank r, (hstarts _ _ hv).head_ne (by simp)⟩

include hskip in
theorem member_complete : ItemComplete (member coder len read) (NoBlank coder.relaxed)
    (NumeralEnd perl) (Member coder Value) '\x7d' where
  read _ _ _ _ := member_append hread hskip
  start o t o' r ht := by
    obtain ⟨kt, w, w', vt, k, v, rfl, hk, -⟩ := ht
    have hne := hk.starts.ne_nil
    refine ⟨by simp [hne], ?_, ?_⟩
    · rw [List.append_assoc]
      exact hk.starts.noBlank _
    · rw [List.head?_append_of_ne_nil _ hne]
      exact hk.starts.head_ne (by simp)

include hstarts in
theorem array_append (ht : ArrayText coder Value t d) (r : List Char) :
    array coder len read (t ++ r) = .ok (d, r) := by
  obtain ⟨u, a, rfl, rfl, hu⟩ := ht
  rw [List.cons_append, array, List.tail_cons, bracketed_complete white_skips
    (element_complete hread hstarts) (punctuation (by simp) (by decide)) hu r]
  rfl

include hskip in
theorem object_append (ht : HashText coder Value t d) (r : List Char) :
    object coder len read (t ++ r) = .ok (d, r) := by
  obtain ⟨u, o, rfl, rfl, hu⟩ := ht
  rw [List.cons_append, object, List.tail_cons, bracketed_complete white_skips
    (member_complete hread hskip) (punctuation (by simp) (by decide)) hu r]
  rfl

end Complete

/-- Blanks before a value are skipped. -/
theorem value_blank {w : List Char} (hw : Blank coder.relaxed w) (r : List Char) :
    value perl coder len n (w ++ r) = value perl coder len n r := by
  cases n with
  | zero => rw [value, value, valueWith, valueWith, white_append hw]
  | succ n => rw [value, value, valueWith, valueWith, white_append hw]

/-- A value is read to its end. -/
theorem value_append (ht : Item perl coder n t d) (hr : NumeralStart t → NumeralEnd perl r) :
    value perl coder len n (t ++ r) = .ok (d, r) := by
  induction n generalizing t d r with
  | zero => exact valueWith_scalar ht hr
  | succ n ih =>
    have hblank : NoBlank coder.relaxed (t ++ r) := ht.starts.noBlank r
    have hread (t : List Char) (d : Data) (r : List Char) (ht : Item perl coder n t d)
        (hr : NumeralStart t → NumeralEnd perl r) : value perl coder len n (t ++ r) = .ok (d, r) :=
      ih ht hr
    rw [value]
    obtain ht | ht | ht := ht
    · exact valueWith_scalar ht hr
    · have harray : array coder len (value perl coder len n) (t ++ r) = .ok (d, r) :=
        array_append hread (fun _ _ => Item.starts) ht r
      obtain ⟨u, a, rfl, -⟩ := ht
      rw [List.cons_append] at hblank harray ⊢
      rw [valueWith_cons hblank, if_neg (by decide), if_pos rfl, harray]
    · have hobject : object coder len (value perl coder len n) (t ++ r) = .ok (d, r) :=
        object_append hread (fun _ _ hw => value_blank hw _) ht r
      obtain ⟨u, o, rfl, -⟩ := ht
      rw [List.cons_append] at hblank hobject ⊢
      rw [valueWith_cons hblank, if_pos rfl, hobject]

/-! ## What is read is a document -/

section Sound

/-- What reading a value from `r` on came upon: the end of the text, or a value of `Value`. -/
def Reads (perl : Interpreter) (coder : Coder) (len : ℕ) (Value : List Char → Data → Prop)
    (r : List Char) (d : Data) (r' : List Char) : Prop :=
  (r' = [] ∧ white coder len r = .ok []) ∨
    ∃ w t, r = w ++ (t ++ r') ∧ Blank coder.relaxed w ∧ Value t d ∧
      (NumeralStart t → NoDigit perl r')

theorem valueWith_ok {readArray readHash : List Char → Except Failure (Data × List Char)}
    {ArrayValue HashValue : List Char → Data → Prop}
    (harray : ∀ s d r', readArray ('[' :: s) = .ok (d, r') →
      ∃ u, s = u ++ r' ∧ ArrayValue ('[' :: u) d)
    (hhash : ∀ s d r', readHash ('\x7b' :: s) = .ok (d, r') →
      ∃ u, s = u ++ r' ∧ HashValue ('\x7b' :: u) d)
    (h : valueWith perl coder len readArray readHash r = .ok (d, r')) :
    Reads perl coder len (fun t d => Scalar perl coder t d ∨ ArrayValue t d ∨ HashValue t d)
      r d r' := by
  obtain ⟨r₀, hwhite, h₁⟩ := bind_eq_ok.1 h
  cases r₀ with
  | nil =>
    cases h₁
    exact Or.inl ⟨rfl, hwhite⟩
  | cons c s =>
    obtain ⟨w, rfl, hw⟩ : ∃ w, r = w ++ c :: s ∧ Blank coder.relaxed w :=
      (white_ok hwhite).2.resolve_right fun h => List.cons_ne_nil _ _ h.1
    dsimp only at h₁
    split_ifs at h₁ with hbrace hbracket hquote hnumeral
    · subst hbrace
      obtain ⟨u, rfl, hu⟩ := hhash _ _ _ h₁
      exact Or.inr ⟨w, _, rfl, hw, Or.inr (Or.inr hu),
        fun h => absurd h (not_numeralStart rfl (by decide))⟩
    · subst hbracket
      obtain ⟨u, rfl, hu⟩ := harray _ _ _ h₁
      exact Or.inr ⟨w, _, rfl, hw, Or.inr (Or.inl hu),
        fun h => absurd h (not_numeralStart rfl (by decide))⟩
    · obtain ⟨⟨s', r''⟩, hstring, h₂⟩ := bind_eq_ok.1 h₁
      cases h₂
      obtain ⟨t, hct, ht⟩ := string_ok hstring
      refine Or.inr ⟨w, t, by rw [hct], hw, Or.inl (.string ht), fun hstart => ?_⟩
      obtain ⟨q, b, rfl, rfl | ⟨-, rfl⟩, -⟩ := ht
      · exact absurd hstart (not_numeralStart rfl (by decide))
      · exact absurd hstart (not_numeralStart rfl (by decide))
    · obtain ⟨t, hct, ht, rfl, hr'⟩ := number_ok ⟨c, rfl, hnumeral⟩ h₁
      exact Or.inr ⟨w, t, by rw [hct], hw, Or.inl (.numeral ht), fun _ => hr'⟩
    · obtain ⟨t, hct, ht, hstart⟩ := word_ok perl coder h₁
      exact Or.inr ⟨w, t, by rw [hct], hw, Or.inl ht, fun h => absurd h hstart⟩

variable {read : List Char → Except Failure (Data × List Char)} {Value : List Char → Data → Prop}
  (hread : ∀ r d r', read r = .ok (d, r') → Reads perl coder len Value r d r')

include hread

theorem element_ok {a a' : List Data} (h : element read a r = .ok (a', r'))
    (hstop : NoBlank coder.relaxed r) (hne : r ≠ []) :
    ∃ t, r = t ++ r' ∧ Element Value a t a' := by
  obtain ⟨⟨v, r''⟩, hv, h₁⟩ := bind_eq_ok.1 h
  cases h₁
  obtain ⟨rfl, hwhite⟩ | ⟨w, t, rfl, hw, ht, -⟩ := hread _ _ _ hv
  · rw [white_noBlank hstop] at hwhite
    cases hwhite
    exact absurd rfl hne
  · obtain rfl := hw.eq_nil hstop
    exact ⟨t, rfl, v, ht, rfl⟩

theorem member_ok {o o' : List (String × Data)} (h : member coder len read o r = .ok (o', r'))
    (hne : r' ≠ []) : ∃ t, r = t ++ r' ∧ Member coder Value o t o' := by
  obtain ⟨⟨k, r₁⟩, hk, h₁⟩ := bind_eq_ok.1 h
  obtain ⟨r₂, hwhite, h₂⟩ := bind_eq_ok.1 h₁
  dsimp only at h₂
  split at h₂
  · obtain ⟨⟨v, r₃⟩, hv, h₃⟩ := bind_eq_ok.1 h₂
    cases h₃
    obtain ⟨kt, rfl, hkt⟩ := string_ok hk
    obtain ⟨w, rfl, hw⟩ := white_split hwhite (List.cons_ne_nil _ _)
    obtain ⟨rfl, -⟩ | ⟨w', vt, rfl, hw', hvt, -⟩ := hread _ _ _ hv
    · exact absurd rfl hne
    · exact ⟨kt ++ (w ++ ':' :: (w' ++ vt)), by simp, kt, w, w', vt, k, v, rfl, hkt, hw, hw', hvt,
        rfl⟩
  · cases h₂

theorem array_ok {s : List Char} (h : array coder len read ('[' :: s) = .ok (d, r')) :
    ∃ u, s = u ++ r' ∧ ArrayText coder Value ('[' :: u) d := by
  obtain ⟨⟨a, r''⟩, hlist, h₁⟩ := bind_eq_ok.1 h
  cases h₁
  have hsound : ItemSound (element read) (NoBlank coder.relaxed) (Element Value) :=
    fun _ _ _ _ h hstop hne _ => element_ok hread h hstop hne
  obtain ⟨u, rfl, hu⟩ := bracketed_sound white_skips hsound hlist
  exact ⟨u, rfl, u, a, rfl, rfl, hu⟩

theorem object_ok {s : List Char} (h : object coder len read ('\x7b' :: s) = .ok (d, r')) :
    ∃ u, s = u ++ r' ∧ HashText coder Value ('\x7b' :: u) d := by
  obtain ⟨⟨o, r''⟩, hlist, h₁⟩ := bind_eq_ok.1 h
  cases h₁
  have hsound : ItemSound (member coder len read) (NoBlank coder.relaxed) (Member coder Value) :=
    fun _ _ _ _ h _ _ hne => member_ok hread h hne
  obtain ⟨u, rfl, hu⟩ := bracketed_sound white_skips hsound hlist
  exact ⟨u, rfl, u, o, rfl, rfl, hu⟩

end Sound

/-- What `value` reads is a value of the levels that are allowed. -/
theorem value_ok (h : value perl coder len n r = .ok (d, r')) :
    Reads perl coder len (Item perl coder n) r d r' := by
  induction n generalizing r d r' with
  | zero =>
    rw [value] at h
    have hwith : Reads perl coder len (fun t d => Scalar perl coder t d ∨ False ∨ False) r d r' :=
      valueWith_ok (fun _ _ _ h => by cases h) (fun _ _ _ h => by cases h) h
    obtain hend | ⟨w, t, hr, hw, ht, hdigit⟩ := hwith
    · exact Or.inl hend
    · exact Or.inr ⟨w, t, hr, hw, ht.resolve_right (by simp), hdigit⟩
  | succ n ih =>
    rw [value] at h
    exact valueWith_ok (fun _ _ _ => array_ok fun _ _ _ => ih)
      (fun _ _ _ => object_ok fun _ _ _ => ih) h

/-! ## Documents -/

theorem LastBlank.start {relaxed : Bool} (hr : LastBlank relaxed r) :
    ∀ c ∈ r.head?, BlankStart c := by
  have hcomment {w b : List Char} {c : Char} (hw : Blank relaxed w) (hc : BlankStart c) :
      ∀ x ∈ (w ++ c :: b).head?, BlankStart x := by
    cases w with
    | nil => rintro _ ⟨⟩; exact hc
    | cons x w => exact hw.start
  cases hr with
  | blank hw => exact hw.start
  | line hw _ => exact hcomment hw (Or.inr (Or.inl rfl))
  | hash hw _ _ => exact hcomment hw (Or.inr (Or.inr rfl))

theorem Rest.numeralEnd (hr : Rest coder r) (h0 : r.head? ≠ some '0') : NumeralEnd perl r := by
  have hstart : ∀ c ∈ r.head?, BlankStart c := by
    obtain hr | ⟨w, j, rfl, hw⟩ := hr
    · exact hr.start
    · cases w with
      | nil => exact absurd rfl h0
      | cons x w => exact hw.start
  cases r with
  | nil => nofun
  | cons c r => exact (hstart c rfl).numeralEnd

theorem garbage_eq_ok {result : Data} :
    garbage coder len result r = .ok d ↔ result = d ∧ Rest coder r := by
  constructor
  · intro h
    obtain ⟨r', hwhite, h₁⟩ := bind_eq_ok.1 h
    obtain ⟨-, hskip⟩ := white_ok hwhite
    split at h₁
    · cases h₁
      obtain ⟨w, rfl, hw⟩ | ⟨-, hr⟩ := hskip
      · exact ⟨rfl, Or.inl (.blank (by rwa [List.append_nil]))⟩
      · exact ⟨rfl, Or.inl hr⟩
    · cases h₁
      obtain ⟨w, rfl, hw⟩ := hskip.resolve_right (by simp)
      exact ⟨rfl, Or.inr ⟨w, _, rfl, hw⟩⟩
    · cases h₁
  · rintro ⟨rfl, hr | ⟨w, j, rfl, hw⟩⟩
    · rw [garbage, white_lastBlank hr]
      rfl
    · have hzero : NoBlank coder.relaxed ('0' :: j) := by
        rintro _ ⟨⟩
        exact ⟨by decide, by decide, fun h => absurd h.2 (by decide)⟩
      rw [garbage, white_blank hw hzero]
      rfl

theorem ppDecodeJson_ok {text : List Char} (h : ppDecodeJson perl coder text = .ok d) :
    Document perl coder text d := by
  obtain ⟨r, hwhite, h₁⟩ := bind_eq_ok.1 h
  obtain ⟨⟨result, rest⟩, hvalue, h₂⟩ := bind_eq_ok.1 h₁
  dsimp only at h₂
  split_ifs at h₂ with hnil href
  obtain ⟨rfl, hrest⟩ := garbage_eq_ok.1 h₂
  obtain ⟨w, rfl, hw⟩ := white_split hwhite hnil
  have hstop := (white_ok hwhite).1
  obtain ⟨-, hend⟩ | ⟨w', t, rfl, hw', ht, hdigit⟩ := value_ok hvalue
  · rw [white_noBlank hstop] at hend
    cases hend
    exact absurd rfl hnil
  · obtain rfl := hw'.eq_nil hstop
    refine ⟨w, t, rest, rfl, hw, ht, ?_, hrest, fun hstart hzero => ?_⟩
    · rwa [not_and_or, not_not, not_not] at href
    · have := hdigit hstart '0' hzero
      rw [digit_of_isDigit rfl] at this
      cases this

theorem ppDecodeJson_document {text : List Char} (h : Document perl coder text d) :
    ppDecodeJson perl coder text = .ok d := by
  obtain ⟨w, t, r, rfl, hw, ht, href, hr, hnumeral⟩ := h
  have hstarts := ht.starts
  have hne : t ++ r ≠ [] := by simp [hstarts.ne_nil]
  rw [ppDecodeJson, white_blank hw (hstarts.noBlank r)]
  show (value perl coder _ coder.maxDepth (t ++ r) >>= _) = _
  rw [value_append ht fun hstart => hr.numeralEnd (hnumeral hstart)]
  refine (if_neg hne).trans ((if_neg ?_).trans (garbage_eq_ok.2 ⟨rfl, hr⟩))
  rwa [not_and_or, not_not, not_not]

theorem decode_document {text : String} (h : Document perl coder text.toList d) :
    decode perl coder text = .ok d := by
  rw [decode, ppDecodeJson_document h]
  rfl

theorem decode_ok {text : String} (h : decode perl coder text = .ok d) :
    Document perl coder text.toList d := by
  rw [decode] at h
  cases hread : ppDecodeJson perl coder text.toList with
  | error failure => rw [hread] at h; cases h
  | ok d' =>
    rw [hread] at h
    cases h
    exact ppDecodeJson_ok hread

/-- A text decodes to `d` exactly when it is a document that stands for `d`. -/
theorem decode_eq_ok_iff (perl : Interpreter) (coder : Coder) (text : String) (d : Data) :
    decode perl coder text = .ok d ↔ Document perl coder text.toList d :=
  ⟨decode_ok, decode_document⟩

end RegNewvm.JsonPP
