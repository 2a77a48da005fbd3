import RegNewvm.Proof.Json
import RegNewvm.Proof.JsonEncode

/-!
# What is encoded is a document

Whatever the layout and the escapes that the encoder is set to, the text that it writes is one of
the grammar and stands for the same data (`document_ppEncodeJson`), whatever the options of the
decoder.
-/

namespace RegNewvm.JsonPP

open Reader

variable {perl perl' : Interpreter} {coder reader : Coder}

/-! ## Escapes -/

theorem hexVal_digitChar : ∀ d < 16, hexVal (Nat.digitChar d) = d ∧ isHex (Nat.digitChar d) := by
  decide

/-- Four digits that stand for `n`. -/
theorem exists_hex4 {n : ℕ} (hn : n < 65536) :
    ∃ a b c d, hex4 n = [a, b, c, d] ∧ hex [a, b, c, d] = n ∧ [a, b, c, d].all isHex := by
  obtain ⟨h₁, h₁'⟩ := hexVal_digitChar (n / 4096 % 16) (Nat.mod_lt _ (by decide))
  obtain ⟨h₂, h₂'⟩ := hexVal_digitChar (n / 256 % 16) (Nat.mod_lt _ (by decide))
  obtain ⟨h₃, h₃'⟩ := hexVal_digitChar (n / 16 % 16) (Nat.mod_lt _ (by decide))
  obtain ⟨h₄, h₄'⟩ := hexVal_digitChar (n % 16) (Nat.mod_lt _ (by decide))
  refine ⟨_, _, _, _, rfl, ?_, ?_⟩
  · simp only [hex, List.foldl_cons, List.foldl_nil, h₁, h₂, h₃, h₄]
    omega
  · simp only [List.all_cons, List.all_nil, h₁', h₂', h₃', h₄', Bool.and_self]

/-- A character is no surrogate. -/
theorem toNat_valid (c : Char) :
    c.toNat < 0xD800 ∨ (0xDFFF < c.toNat ∧ c.toNat < 0x110000) := c.valid

section StringText

variable {bound c : Char} {t s : List Char}

theorem stringText_hex4 (hc : c.toNat ≤ 65535) (ht : StringText bound none t s) :
    StringText bound none ('\\' :: 'u' :: hex4 c.toNat ++ t) (c :: s) := by
  obtain ⟨x, y, z, w, hdigits, hval, hall⟩ := exists_hex4 (Nat.lt_succ_of_le hc)
  have hvalid := toNat_valid c
  have hu := StringText.unicode hall (by omega) ht
  rw [hval, Char.ofNat_toNat] at hu
  rw [hdigits]
  exact hu

/-- The surrogates of a character, and back. -/
theorem decodeSurrogates_encodeSurrogates (hc : 65535 < c.toNat) :
    0xD800 ≤ (encodeSurrogates c.toNat).1 ∧ (encodeSurrogates c.toNat).1 ≤ 0xDBFF ∧
      0xDC00 ≤ (encodeSurrogates c.toNat).2 ∧ (encodeSurrogates c.toNat).2 ≤ 0xDFFF ∧
      decodeSurrogates (encodeSurrogates c.toNat).1 (encodeSurrogates c.toNat).2 = c := by
  have hvalid := toNat_valid c
  unfold encodeSurrogates decodeSurrogates
  refine ⟨by omega, by omega, by omega, by omega, ?_⟩
  dsimp only
  have hcode : 0x10000 + ((c.toNat - 0x10000) / 0x400 + 0xD800 - 0xD800) * 0x400 +
      ((c.toNat - 0x10000) % 0x400 + 0xDC00 - 0xDC00) = c.toNat := by omega
  rw [hcode, Char.ofNat_toNat]

theorem stringText_surrogates (hc : 65535 < c.toNat) (ht : StringText bound none t s) :
    StringText bound none ('\\' :: 'u' :: hex4 (encodeSurrogates c.toNat).1 ++
      ('\\' :: 'u' :: hex4 (encodeSurrogates c.toNat).2 ++ t)) (c :: s) := by
  obtain ⟨hhigh, hhigh', hlow, hlow', hdecode⟩ := decodeSurrogates_encodeSurrogates hc
  generalize (encodeSurrogates c.toNat).1 = high at hhigh hhigh' hdecode
  generalize (encodeSurrogates c.toNat).2 = low at hlow hlow' hdecode
  obtain ⟨x, y, z, w, hdigits, hval, hall⟩ := exists_hex4 (by omega : high < 65536)
  obtain ⟨x', y', z', w', hdigits', hval', hall'⟩ := exists_hex4 (by omega : low < 65536)
  have hpair : StringText bound (some (hex [x, y, z, w]))
      ('\\' :: 'u' :: x' :: y' :: z' :: w' :: t) (c :: s) := by
    rw [← hdecode, ← hval', hval]
    exact .low hall' (by omega) (by omega) ht
  rw [hdigits, hdigits']
  exact .high hall (by omega) (by omega) hpair

/-- A character that needs no escape. -/
theorem stringText_char (hc : 0x20 ≤ c.toNat) (hquote : c ≠ '"') (hescape : c ≠ '\\')
    (ht : StringText '"' none t s) : StringText '"' none (c :: t) (c :: s) :=
  .char hquote hescape (fun h => absurd (show c.toNat < 0x20 from h) (by omega)) hquote ht

end StringText

/-- A character that no substitution but the first can change. -/
def Plain (x : Char) : Prop := x ≠ '/' ∧ 0x20 ≤ x.toNat ∧ x.toNat ≤ 127

instance (x : Char) : Decidable (Plain x) :=
  inferInstanceAs (Decidable (x ≠ '/' ∧ 0x20 ≤ x.toNat ∧ x.toNat ≤ 127))

theorem plain_digitChar : ∀ d < 16, Plain (Nat.digitChar d) := by decide

theorem plain_hex4 (n : ℕ) : ∀ x ∈ '\\' :: 'u' :: hex4 n, Plain x := by
  have hdigit (m : ℕ) : Plain (Nat.digitChar (m % 16)) :=
    plain_digitChar _ (Nat.mod_lt _ (by decide))
  simp only [hex4, List.forall_mem_cons, hdigit, List.not_mem_nil, false_implies, implies_true,
    and_true]
  exact ⟨by decide, by decide⟩

theorem plain_escapeAbove {limit : ℕ} {c : Char} (hc : limit < c.toNat) :
    ∀ x ∈ escapeAbove limit c, Plain x := by
  unfold escapeAbove
  rw [if_neg (by omega)]
  split_ifs
  · exact plain_hex4 _
  · intro x hx
    obtain hx | hx := List.mem_append.1 hx
    · exact plain_hex4 _ x hx
    · exact plain_hex4 _ x hx

theorem flatMap_eq_self {f : Char → List Char} {l : List Char} (h : ∀ x ∈ l, f x = [x]) :
    l.flatMap f = l := by
  induction l with
  | nil => rfl
  | cons x l ih =>
    obtain ⟨hx, hl⟩ := List.forall_mem_cons.1 h
    rw [List.flatMap_cons, hx, ih hl]
    rfl

theorem escapeAbove_of_le {limit : ℕ} {x : Char} (hx : x.toNat ≤ limit) :
    escapeAbove limit x = [x] :=
  if_pos hx

theorem escapeControl_of_le {x : Char} (hx : 0x20 ≤ x.toNat) : escapeControl x = [x] :=
  if_neg (by omega)

theorem escapeWide_of_ascii {l : List Char} (hl : ∀ x ∈ l, x.toNat ≤ 127) :
    escapeWide coder l = l := by
  have hascii : encodeAscii l = l := flatMap_eq_self fun x hx => escapeAbove_of_le (hl x hx)
  have hlatin : encodeLatin1 l = l :=
    flatMap_eq_self fun x hx => escapeAbove_of_le ((hl x hx).trans (by decide))
  unfold escapeWide
  simp only [hascii, ite_self, hlatin]

theorem escapeText_of_plain {arg l : List Char} (harg : arg.flatMap escapeQuoted = l)
    (hl : ∀ x ∈ l, Plain x) : escapeText coder arg = l := by
  have hslash : l.flatMap escapeSlash = l := flatMap_eq_self fun x hx => if_neg (hl x hx).1
  have hcontrol : l.flatMap escapeControl = l :=
    flatMap_eq_self fun x hx => escapeControl_of_le (hl x hx).2.1
  unfold escapeText
  simp only [harg, hslash, ite_self, hcontrol]
  exact escapeWide_of_ascii fun x hx => (hl x hx).2.2

theorem escapeText_cons (c : Char) (arg : List Char) :
    escapeText coder (c :: arg) = escapeText coder [c] ++ escapeText coder arg := by
  unfold escapeText escapeWide encodeAscii encodeLatin1
  rw [← List.singleton_append]
  split_ifs <;> simp only [List.flatMap_append]

/-- The first substitution escapes a character, or leaves it as it is. -/
theorem escapeQuoted_cases (c : Char) :
    (∃ e ∈ ['"', '\\', 'n', 'r', 't', 'f', 'b'], escapeQuoted c = ['\\', e] ∧ escapes e = some c) ∨
      (escapeQuoted c = [c] ∧ c ≠ '"' ∧ c ≠ '\\' ∧ c ≠ '\n' ∧ c ≠ '\r' ∧ c ≠ '\t' ∧ c ≠ '\x0c' ∧
        c ≠ '\x08') := by
  fun_cases escapeQuoted c with
  | case8 c h₁ h₂ h₃ h₄ h₅ h₆ h₇ => exact Or.inr ⟨rfl, h₁, h₂, h₃, h₄, h₅, h₆, h₇⟩
  | _ => exact Or.inl ⟨_, by decide, rfl, rfl⟩

/-- What the options `ascii` and `latin1` make of a character above U+007F stands for it. -/
theorem stringText_wide {c : Char} {t s : List Char} (hc : 127 < c.toNat)
    (ht : StringText '"' none t s) : StringText '"' none (escapeWide coder [c] ++ t) (c :: s) := by
  have hchar : StringText '"' none ([c] ++ t) (c :: s) :=
    stringText_char (by omega) (by rintro rfl; exact absurd hc (by decide))
      (by rintro rfl; exact absurd hc (by decide)) ht
  have habove (limit : ℕ) : StringText '"' none (escapeAbove limit c ++ t) (c :: s) := by
    unfold escapeAbove
    split_ifs with hlimit hpair
    · exact hchar
    · exact stringText_hex4 hpair ht
    · rw [List.append_assoc]
      exact stringText_surrogates (by omega) ht
  have hascii : ∀ x ∈ escapeAbove 127 c, escapeAbove 255 x = [x] := fun x hx =>
    escapeAbove_of_le ((plain_escapeAbove hc x hx).2.2.trans (by decide))
  unfold escapeWide encodeAscii encodeLatin1
  rw [List.flatMap_singleton]
  split_ifs
  · rw [flatMap_eq_self hascii]
    exact habove 127
  · exact habove 127
  · rw [List.flatMap_singleton]
    exact habove 255
  · exact hchar

/-- What is written for a character stands for it. -/
theorem stringText_escape {c : Char} {t s : List Char} (ht : StringText '"' none t s) :
    StringText '"' none (escapeText coder [c] ++ t) (c :: s) := by
  obtain ⟨e, he, hc, hescape⟩ | ⟨hc, hquote, hback, hn, hr, htab, hf, hb⟩ := escapeQuoted_cases c
  · have hplain : ∀ x ∈ ['\\', e], Plain x := by
      rw [List.forall_mem_cons, List.forall_mem_singleton]
      exact ⟨by decide, by fin_cases he <;> decide⟩
    rw [escapeText_of_plain (by rw [List.flatMap_singleton, hc]) hplain]
    exact .escape hescape ht
  · have hne {x : Char} (h : c ≠ x) : c.toNat ≠ x.toNat := fun hx => h (Char.toNat_inj.1 hx)
    by_cases hslash : c = '/'
    · subst hslash
      have htext : escapeText coder ['/'] = if coder.escapeSlash then ['\\', '/'] else ['/'] := by
        have hkeep (l : List Char) (hl : ∀ x ∈ l, x = '\\' ∨ x = '/') :
            escapeWide coder (l.flatMap escapeControl) = l := by
          have hcode (x : Char) (hx : x ∈ l) : 0x20 ≤ x.toNat ∧ x.toNat ≤ 127 := by
            obtain rfl | rfl := hl x hx <;> decide
          rw [flatMap_eq_self fun x hx => escapeControl_of_le (hcode x hx).1]
          exact escapeWide_of_ascii fun x hx => (hcode x hx).2
        unfold escapeText
        split_ifs
        · exact hkeep ['\\', '/'] (by simp)
        · exact hkeep ['/'] (by simp)
      rw [htext]
      split_ifs
      · exact .escape rfl ht
      · exact stringText_char (by decide) (by decide) (by decide) ht
    have hslash' : [c].flatMap escapeSlash = [c] :=
      flatMap_eq_self fun x hx => if_neg (by rwa [List.mem_singleton.1 hx])
    have htext : escapeText coder [c] = escapeWide coder (escapeControl c) := by
      unfold escapeText
      rw [List.flatMap_singleton, hc]
      simp only [hslash', ite_self]
      rw [List.flatMap_singleton]
    rw [htext]
    by_cases hcontrol : c.toNat < 0x20
    · have hcode : c.toNat ≤ 0x08 ∨ c.toNat = 0x0b ∨ (0x0e ≤ c.toNat ∧ c.toNat ≤ 0x1f) := by
        have h9 : c.toNat ≠ 9 := hne htab
        have h10 : c.toNat ≠ 10 := hne hn
        have h12 : c.toNat ≠ 12 := hne hf
        have h13 : c.toNat ≠ 13 := hne hr
        omega
      unfold escapeControl
      rw [if_pos hcode, escapeWide_of_ascii fun x hx => (plain_hex4 _ x hx).2.2]
      exact stringText_hex4 (by omega) ht
    · rw [escapeControl_of_le (by omega)]
      by_cases hascii : c.toNat ≤ 127
      · rw [escapeWide_of_ascii (by simpa using hascii)]
        exact stringText_char (by omega) hquote hback ht
      · exact stringText_wide (by omega) ht

/-- A string is written as a quoted text that stands for it. -/
theorem quoted_stringToJson (s : String) : Quoted reader (stringToJson coder s) s := by
  refine ⟨'"', escapeText coder s.toList, rfl, Or.inl rfl, ?_⟩
  induction s.toList with
  | nil =>
    have hnil : escapeText coder [] = [] := by
      unfold escapeText escapeWide encodeAscii encodeLatin1
      simp
    rw [hnil]
    exact .nil
  | cons c l ih =>
    rw [escapeText_cons]
    exact stringText_escape ih

/-! ## Containers -/

theorem blank_of_spaces {relaxed : Bool} {w : List Char} (hw : ∀ c ∈ w, c ≤ ' ') :
    Blank relaxed w := by
  induction w with
  | nil => exact .nil
  | cons c w ih =>
    obtain ⟨hc, hw⟩ := List.forall_mem_cons.1 hw
    exact .space hc (ih hw)

theorem blank_upIndent (coder : Coder) (relaxed : Bool) (count : ℕ) :
    Blank relaxed (upIndent coder count).1 ∧ Blank relaxed (upIndent coder count).2.1 := by
  have hline (k : ℕ) : Blank relaxed ('\n' :: List.replicate k ' ') := by
    refine .space (by decide) (blank_of_spaces fun c hc => ?_)
    exact List.eq_of_mem_replicate hc ▸ Char.le_refl _
  unfold upIndent
  split_ifs
  · exact ⟨hline _, hline _⟩
  · exact ⟨.nil, .nil⟩

/-- Elements that are related to a third list by way of each pair. -/
theorem forall₂_exists {α β γ : Type} {R : α → β → Prop} {S : α → γ → Prop} {T : β → γ → Prop}
    {l : List α} {l' : List β} (h : List.Forall₂ R l l')
    (hR : ∀ a ∈ l, ∀ b, R a b → ∃ c, S a c ∧ T b c) :
    ∃ l'', List.Forall₂ S l l'' ∧ List.Forall₂ T l' l'' := by
  induction h with
  | nil => exact ⟨[], .nil, .nil⟩
  | cons hab _ ih =>
    obtain ⟨ha, hl⟩ := List.forall_mem_cons.1 hR
    obtain ⟨c, hS, hT⟩ := ha _ hab
    obtain ⟨l'', hS', hT'⟩ := ih hl
    exact ⟨c :: l'', .cons hS hS', .cons hT hT'⟩

theorem items_element {Value : List Char → Data → Prop} {ts : List (List Char)} {items : List Data}
    (h : List.Forall₂ Value ts items) (a : List Data) :
    Items (Element Value) a ts (a ++ items) := by
  induction h generalizing a with
  | nil => rw [List.append_nil]; exact .nil
  | @cons t v ts items hv _ ih =>
    have hrest := ih (a ++ [v])
    rw [List.append_assoc] at hrest
    exact .cons ⟨v, hv, rfl⟩ hrest

/-- A key, a colon and a value. -/
def MemberText (coder : Coder) (Value : List Char → Data → Prop) (t : List Char)
    (entry : String × Data) : Prop :=
  ∃ kt w w' vt, t = kt ++ (w ++ ':' :: (w' ++ vt)) ∧ Quoted coder kt entry.1 ∧
    Blank coder.relaxed w ∧ Blank coder.relaxed w' ∧ Value vt entry.2

theorem items_member {Value : List Char → Data → Prop} {ts : List (List Char)}
    {entries : List (String × Data)} (h : List.Forall₂ (MemberText coder Value) ts entries)
    (o : List (String × Data)) (hkeys : ((o ++ entries).map Prod.fst).Nodup) :
    Items (Member coder Value) o ts (o ++ entries) := by
  induction h generalizing o with
  | nil => rw [List.append_nil]; exact .nil
  | @cons t entry ts entries hentry _ ih =>
    obtain ⟨kt, w, w', vt, rfl, hk, hw, hw', hv⟩ := hentry
    have hnew : entry.1 ∉ o.map Prod.fst := by
      rw [List.map_append, List.map_cons] at hkeys
      exact fun hmem => List.disjoint_of_nodup_append hkeys hmem List.mem_cons_self
    have hset : setEntry o entry.1 entry.2 = o ++ [entry] := if_neg hnew
    have hrest := ih (o ++ [entry]) (by rwa [List.append_assoc])
    rw [List.append_assoc] at hrest
    exact .cons ⟨kt, w, w', vt, entry.1, entry.2, rfl, hk, hw, hw', hv, hset.symm⟩ hrest

theorem blank_del (coder : Coder) (relaxed : Bool) :
    ∃ w w', del coder = w ++ ':' :: w' ∧ Blank relaxed w ∧ Blank relaxed w' := by
  refine ⟨_, _, rfl, ?_, ?_⟩
  · split_ifs
    · exact .space (Char.le_refl _) .nil
    · exact .nil
  · split_ifs
    · exact .space (Char.le_refl _) .nil
    · exact .nil

theorem item_scalar {n count : ℕ} {d : Data} {t : List Char}
    (hd : WellFormed (PrintedNumber perl) d)
    (hscalar : (∀ items, d ≠ .array items) ∧ ∀ entries, d ≠ .hash entries)
    (h : objectToJson perl' coder n count d = .ok t) :
    ∃ d', Same d d' ∧ Item perl reader n t d' := by
  rw [objectToJson.eq_5 _ _ _ _ _ (fun _ _ => hscalar.1 _) (fun _ _ => hscalar.2 _)
    (fun _ _ _ => hscalar.1 _) (fun _ _ _ => hscalar.2 _)] at h
  cases h
  cases hd with
  | null => exact ⟨.null, .null, .scalar .null⟩
  | bool b =>
    cases b with
    | true => exact ⟨_, .bool _, .scalar .true⟩
    | false => exact ⟨_, .bool _, .scalar .false⟩
  | @number text ht =>
    have hnumeral : Scalar perl reader text.toList (numeric perl text.toList) := .numeral ht.1
    rw [ht.2] at hnumeral
    exact ⟨_, .number _, .scalar hnumeral⟩
  | string s => exact ⟨_, .string s, .scalar (.string (quoted_stringToJson s))⟩
  | array _ => exact absurd rfl (hscalar.1 _)
  | hash _ _ => exact absurd rfl (hscalar.2 _)

theorem forall₂_pairs {R : Data → Data → Prop} {l l' : List (String × Data)}
    (h : List.Forall₂ (fun a b => a.1 = b.1 ∧ R a.2 b.2) l l') :
    l.map Prod.fst = l'.map Prod.fst ∧ List.Forall₂ R (l.map Prod.snd) (l'.map Prod.snd) := by
  induction h with
  | nil => exact ⟨rfl, .nil⟩
  | cons hab _ ih => exact ⟨List.cons_eq_cons.2 ⟨hab.1, ih.1⟩, .cons hab.2 ih.2⟩

section Levels

variable {n count : ℕ} {t : List Char}
  (ih : ∀ d, WellFormed (PrintedNumber perl) d → ∀ count t,
    objectToJson perl' coder n count d = .ok t → ∃ d', Same d d' ∧ Item perl reader n t d')

include ih

theorem arrayText_objectToJson {items : List Data}
    (hitems : ∀ d ∈ items, WellFormed (PrintedNumber perl) d)
    (h : objectToJson perl' coder (n + 1) count (.array items) = .ok t) :
    ∃ d', Same (.array items) d' ∧ ArrayText reader (Item perl reader n) t d' := by
  obtain ⟨hpre, hpost⟩ := blank_upIndent coder reader.relaxed count
  rw [objectToJson] at h
  generalize upIndent coder count = indent at h hpre hpost
  obtain ⟨pre, post, count'⟩ := indent
  obtain ⟨res, hres, h₁⟩ := bind_eq_ok.1 h
  cases h₁
  obtain ⟨items', hsame, htexts⟩ := forall₂_exists (mapM_eq_ok.1 hres)
    fun d hd t => ih d (hitems d hd) count' t
  refine ⟨.array items', .array hsame, _, items', rfl, rfl, ?_⟩
  exact (items_element htexts []).bracketed .nil hpre hpost

theorem hashText_objectToJson {entries : List (String × Data)}
    (hkeys : (entries.map Prod.fst).Nodup)
    (hentries : ∀ entry ∈ entries, WellFormed (PrintedNumber perl) entry.2)
    (h : objectToJson perl' coder (n + 1) count (.hash entries) = .ok t) :
    ∃ d', Same (.hash entries) d' ∧ HashText reader (Item perl reader n) t d' := by
  obtain ⟨hpre, hpost⟩ := blank_upIndent coder reader.relaxed count
  obtain ⟨w, w', hdel, hw, hw'⟩ := blank_del coder reader.relaxed
  have hperm : (sort perl' coder entries).Perm entries := sort_perm perl' coder entries
  rw [objectToJson] at h
  generalize upIndent coder count = indent at h hpre hpost
  obtain ⟨pre, post, count'⟩ := indent
  obtain ⟨res, hres, h₁⟩ := bind_eq_ok.1 h
  cases h₁
  obtain ⟨entries', hsame, htexts⟩ := forall₂_exists
    (S := fun a b => a.1 = b.1 ∧ Same a.2 b.2) (T := MemberText reader (Item perl reader n))
    (mapM_eq_ok.1 hres) fun entry hentry t ht => by
      obtain ⟨vt, hvt, ht₁⟩ := bind_eq_ok.1 ht
      cases ht₁
      obtain ⟨v, hsame, hv⟩ := ih _ (hentries _ (hperm.subset hentry)) count' vt hvt
      refine ⟨(entry.1, v), ⟨rfl, hsame⟩, stringToJson coder entry.1, w, w', vt, ?_,
        quoted_stringToJson _, hw, hw', hv⟩
      rw [hdel]
      simp
  obtain ⟨hfst, hsnd⟩ := forall₂_pairs hsame
  have hnodup : (entries'.map Prod.fst).Nodup := by
    rw [← hfst]
    exact (hperm.map Prod.fst).nodup_iff.2 hkeys
  refine ⟨.hash entries', .hash hperm hfst hsnd, _, entries', rfl, rfl, ?_⟩
  exact (items_member htexts [] hnodup).bracketed .nil hpre hpost

end Levels

/-- What is written for a value is a text of the grammar, at any options of the reader. -/
theorem item_objectToJson (reader : Coder) {n count : ℕ} {d : Data} {t : List Char}
    (hd : WellFormed (PrintedNumber perl) d)
    (h : objectToJson perl' coder n count d = .ok t) :
    ∃ d', Same d d' ∧ Item perl reader n t d' := by
  induction n generalizing count d t with
  | zero =>
    cases d with
    | array items => cases h
    | hash entries => cases h
    | _ => exact item_scalar hd ⟨nofun, nofun⟩ h
  | succ n ih =>
    have ih' (d : Data) (hd : WellFormed (PrintedNumber perl) d) (count : ℕ) (t : List Char)
        (h : objectToJson perl' coder n count d = .ok t) :
        ∃ d', Same d d' ∧ Item perl reader n t d' := ih hd h
    cases hd with
    | array hitems =>
      obtain ⟨d', hsame, ht⟩ := arrayText_objectToJson ih' hitems h
      exact ⟨d', hsame, Or.inr (Or.inl ht)⟩
    | hash hkeys hentries =>
      obtain ⟨d', hsame, ht⟩ := hashText_objectToJson ih' hkeys hentries h
      exact ⟨d', hsame, Or.inr (Or.inr ht)⟩
    | _ => exact item_scalar (by constructor <;> assumption) ⟨nofun, nofun⟩ h

/-- What is written for some data is a document that stands for them, if the reader allows as many
levels as the data have. -/
theorem document_ppEncodeJson (reader : Coder) {d : Data} {t : List Char}
    (hd : WellFormed (PrintedNumber perl) d)
    (hwithin : Within reader.maxDepth d) (htop : reader.allowNonref ∨ d.isRef)
    (h : ppEncodeJson perl' coder d = .ok t) : ∃ d', Same d d' ∧ Document perl reader t d' := by
  unfold ppEncodeJson at h
  by_cases href : ¬ d.isRef ∧ ¬ coder.allowNonref
  · rw [if_pos href] at h
    cases h
  rw [if_neg href] at h
  obtain ⟨str, hstr, h₁⟩ := bind_eq_ok.1 h
  cases h₁
  rw [objectToJson_eq ((exists_objectToJson_iff _ _ _ _ _).1 ⟨str, hstr⟩) hwithin] at hstr
  obtain ⟨d', hsame, hitem⟩ := item_objectToJson reader hd hstr
  rw [hsame.isRef_eq] at htop
  refine ⟨d', hsame, [], str, if coder.indent then ['\n'] else [], rfl, .nil, hitem, htop,
    Or.inl (.blank (blank_of_spaces ?_)), fun _ => ?_⟩
  · split_ifs
    · exact fun c hc => List.mem_singleton.1 hc ▸ (by decide)
    · nofun
  · split_ifs <;> decide

end RegNewvm.JsonPP
