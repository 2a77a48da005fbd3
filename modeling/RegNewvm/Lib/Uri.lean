import RegNewvm.Lib.Query
import Mathlib.Data.List.DropRight

/-!
# What a URI object makes of a string

A URI object made from a string drops the blanks at both ends and writes every character that may
not stand in a URI as a percent escape; reserved characters, `%` and `#` stay as they are
(`UriRules`).  The escapes it writes cannot be told from the characters they stand for by a reader
that decodes (`readQuery_uri`), so what concatenation spoiled stays spoiled
(`readBack_trim_iff`).
-/

namespace Url

/-- The characters with a meaning in a URI, and the two that URI objects never escape. -/
def reserved : List Char := [';', '/', '?', ':', '@', '&', '=', '+', '$', ',', '%', '#']

/-- Which characters a URI object keeps, and which it takes off both ends. -/
structure UriRules where
  uric : Char → Bool
  blank : Char → Bool
  uric_reserved : ∀ c ∈ reserved, uric c = true
  uric_alphanum : ∀ c, c.isAlphanum = true → uric c = true
  blank_not_uric : ∀ c, blank c = true → uric c = false

namespace UriRules

variable (U : UriRules)

def escape (s : List Char) : List Char :=
  s.flatMap fun c => if U.uric c then [c] else escapeChar c

def trim (s : List Char) : List Char := (s.dropWhile U.blank).rdropWhile U.blank

/-- `URI->new(s)` -/
def uri (s : List Char) : List Char := U.escape (U.trim s)

/-- The last character is a blank. -/
def EndsBlank (s : List Char) : Prop := s.getLast?.any U.blank = true

instance : DecidablePred U.EndsBlank := fun s =>
  inferInstanceAs (Decidable (s.getLast?.any U.blank = true))

/-! ## Reading escaped text -/

theorem escape_cons_of_uric {c : Char} (h : U.uric c = true) (s : List Char) :
    U.escape (c :: s) = c :: U.escape s := by
  rw [escape, List.flatMap_cons, if_pos h]
  rfl

theorem escape_cons_of_not_uric {c : Char} (h : U.uric c = false) (s : List Char) :
    U.escape (c :: s) = escapeChar c ++ U.escape s := by
  rw [escape, List.flatMap_cons, if_neg (by simp [h])]
  rfl

theorem escape_append (s t : List Char) : U.escape (s ++ t) = U.escape s ++ U.escape t :=
  List.flatMap_append

theorem isAlphanum_of_hexVal_ne_none {c : Char} (h : hexVal c ≠ none) : c.isAlphanum = true := by
  have hrange : (48 ≤ c.toNat ∧ c.toNat ≤ 57) ∨ (65 ≤ c.toNat ∧ c.toNat ≤ 70) ∨
      97 ≤ c.toNat ∧ c.toNat ≤ 102 := by
    unfold hexVal at h
    split_ifs at h with h₁ h₂ h₃
    · exact Or.inl h₁
    · exact Or.inr (Or.inl h₂)
    · exact Or.inr (Or.inr h₃)
    · exact absurd rfl h
  unfold Char.isAlphanum Char.isAlpha Char.isUpper Char.isLower Char.isDigit
  simp only [ge_iff_le, UInt32.le_iff_toNat_le, Bool.or_eq_true, Bool.and_eq_true,
    decide_eq_true_eq]
  show ((65 ≤ c.toNat ∧ c.toNat ≤ 90) ∨ (97 ≤ c.toNat ∧ c.toNat ≤ 122)) ∨
    (48 ≤ c.toNat ∧ c.toNat ≤ 57)
  omega

theorem hexVal_of_not_uric {c : Char} (h : U.uric c = false) : hexVal c = none := by
  by_contra hc
  rw [U.uric_alphanum c (isAlphanum_of_hexVal_ne_none hc)] at h
  cases h

theorem hexPair_escape (s : List Char) : hexPair (U.escape s) = hexPair s := by
  match s with
  | [] => rfl
  | a :: s =>
    cases ha : U.uric a with
    | false =>
      rw [escape_cons_of_not_uric U ha]
      cases s <;>
        simp [escapeChar, hexPair, hexVal_of_not_uric U ha, show hexVal '%' = none by decide]
    | true =>
      rw [escape_cons_of_uric U ha]
      match s with
      | [] => rfl
      | b :: s =>
        cases hb : U.uric b with
        | false =>
          rw [escape_cons_of_not_uric U hb]
          simp [escapeChar, hexPair, hexVal_of_not_uric U hb, show hexVal '%' = none by decide]
        | true =>
          rw [escape_cons_of_uric U hb]
          rfl

theorem drop_escape_of_hexPair {s : List Char} {n : ℕ} (h : hexPair s = some n) :
    (U.escape s).drop 2 = U.escape (s.drop 2) := by
  match s with
  | [] => rfl
  | [a] => cases h
  | a :: b :: s =>
    have ha : U.uric a = true := by
      by_contra ha
      rw [Bool.not_eq_true] at ha
      simp [hexPair, hexVal_of_not_uric U ha] at h
    have hb : U.uric b = true := by
      by_contra hb
      rw [Bool.not_eq_true] at hb
      simp [hexPair, hexVal_of_not_uric U hb] at h
    rw [escape_cons_of_uric U ha, escape_cons_of_uric U hb]
    rfl

/-- Decoding undoes the escapes the URI object wrote, and leaves no trace of them. -/
theorem percentDecode_escape {s : List Char} (hs : ∀ c ∈ s, c.toNat < 256) :
    percentDecode (U.escape s) = percentDecode s := by
  induction hn : s.length using Nat.strongRecOn generalizing s with
  | _ n ih =>
    match s with
    | [] => rfl
    | c :: s =>
      obtain ⟨hc, hs⟩ := List.forall_mem_cons.1 hs
      rw [List.length_cons] at hn
      have ihs := ih s.length (by omega) hs rfl
      cases hu : U.uric c with
      | false =>
        have hne : c ≠ '%' := by
          rintro rfl
          rw [U.uric_reserved '%' (by decide)] at hu
          cases hu
        rw [escape_cons_of_not_uric U hu, percentDecode_escapeChar hc, ihs,
          percentDecode_cons_of_none (escapeAt_of_ne hne s)]
      | true =>
        have hat : escapeAt c (U.escape s) = escapeAt c s := by
          simp only [escapeAt, hexPair_escape]
        rw [escape_cons_of_uric U hu]
        cases h : escapeAt c s with
        | none =>
          rw [percentDecode_cons_of_none (hat.trans h), percentDecode_cons_of_none h, ihs]
        | some m =>
          have hpair : hexPair s = some m := by
            rw [escapeAt] at h
            split_ifs at h
            exact h
          have ihd := ih (s.drop 2).length (by rw [List.length_drop]; omega)
            (fun a ha => hs a (List.mem_of_mem_drop ha)) rfl
          rw [(percentDecode_cons_of_some (hat.trans h)).2, (percentDecode_cons_of_some h).2,
            drop_escape_of_hexPair U hpair, ihd]

/-! ### Separators -/

variable {x : Char} {s t : List Char}

theorem escape_append_cons (hx : U.uric x = true) :
    U.escape (s ++ x :: t) = U.escape s ++ x :: U.escape t := by
  rw [escape_append, escape_cons_of_uric U hx]

theorem not_mem_escape (hx : Separator x) (h : x ∉ s) : x ∉ U.escape s := by
  rw [escape, List.mem_flatMap]
  rintro ⟨c, hc, hmem⟩
  split_ifs at hmem
  · exact h (List.mem_singleton.1 hmem ▸ hc)
  · exact not_mem_escapeChar hx c hmem

theorem takeWhile_escape (hx : Separator x) (hu : U.uric x = true) (s : List Char) :
    (U.escape s).takeWhile (· ≠ x) = U.escape (s.takeWhile (· ≠ x)) := by
  by_cases h : x ∈ s
  · obtain ⟨a, b, rfl, ha⟩ := List.eq_append_cons_of_mem h
    rw [escape_append_cons U hu, takeWhile_append_cons (not_mem_escape U hx ha),
      takeWhile_append_cons ha]
  · rw [takeWhile_eq_self (not_mem_escape U hx h), takeWhile_eq_self h]

theorem tail_dropWhile_escape (hx : Separator x) (hu : U.uric x = true) (s : List Char) :
    ((U.escape s).dropWhile (· ≠ x)).tail = U.escape (s.dropWhile (· ≠ x)).tail := by
  by_cases h : x ∈ s
  · obtain ⟨a, b, rfl, ha⟩ := List.eq_append_cons_of_mem h
    rw [escape_append_cons U hu, dropWhile_append_cons (not_mem_escape U hx ha),
      dropWhile_append_cons ha]
    rfl
  · rw [dropWhile_eq_nil (not_mem_escape U hx h), dropWhile_eq_nil h]
    rfl

theorem splitOn_escape (hx : Separator x) (hu : U.uric x = true) (s : List Char) :
    (U.escape s).splitOn x = (s.splitOn x).map U.escape := by
  induction s using split_induction x with
  | last s hs =>
    rw [List.splitOn_eq_singleton hs, List.splitOn_eq_singleton (not_mem_escape U hx hs)]
    rfl
  | cons s t hs ih =>
    rw [escape_append_cons U hu, List.splitOn_append_cons_self_of_not_mem (not_mem_escape U hx hs),
      List.splitOn_append_cons_self_of_not_mem hs, ih, List.map_cons]

theorem mem_escape_iff (hx : Separator x) (hu : U.uric x = true) : x ∈ U.escape s ↔ x ∈ s := by
  refine ⟨fun h => by_contra fun hs => not_mem_escape U hx hs h, fun h => ?_⟩
  obtain ⟨a, b, rfl⟩ := List.append_of_mem h
  rw [escape_append_cons U hu]
  simp

theorem separator_of_mem {x : Char} (hx : x ∈ ['#', '?', '&', '=']) :
    Separator x ∧ U.uric x = true := by
  simp only [List.mem_cons, List.not_mem_nil, or_false] at hx
  rcases hx with rfl | rfl | rfl | rfl
  all_goals exact ⟨by decide, U.uric_reserved _ (by decide)⟩

theorem readPair_escape {piece : List Char} (h : ∀ c ∈ piece, c.toNat < 256) :
    readPair (U.escape piece) = readPair piece := by
  obtain ⟨hsep, huric⟩ := separator_of_mem U (x := '=') (by decide)
  simp only [readPair, mem_escape_iff U hsep huric]
  split_ifs
  · rw [takeWhile_escape U hsep huric, tail_dropWhile_escape U hsep huric,
      percentDecode_escape U fun c hc => h c ((List.takeWhile_sublist _).subset hc),
      percentDecode_escape U fun c hc =>
        h c ((List.dropWhile_sublist _).subset (List.mem_of_mem_tail hc))]
  · rw [percentDecode_escape U h]

/-- A reader cannot tell the escaped text from the text. -/
theorem readQuery_escape {url : List Char} (h : ∀ c ∈ url, c.toNat < 256) :
    readQuery (U.escape url) = readQuery url := by
  obtain ⟨hhash, hhash'⟩ := separator_of_mem U (x := '#') (by decide)
  obtain ⟨hquestion, hquestion'⟩ := separator_of_mem U (x := '?') (by decide)
  obtain ⟨hand, hand'⟩ := separator_of_mem U (x := '&') (by decide)
  simp only [readQuery, cutFragment, afterQuestion]
  rw [takeWhile_escape U hhash hhash', tail_dropWhile_escape U hquestion hquestion',
    splitOn_escape U hand hand', List.map_map]
  refine List.map_congr_left fun piece hpiece => readPair_escape U fun c hc => h c ?_
  have hmem := mem_of_mem_splitOn hpiece hc
  exact (List.takeWhile_sublist _).subset ((List.dropWhile_sublist _).subset
    (List.mem_of_mem_tail hmem))

/-- What is read from the URI object is what the trimmed text says. -/
theorem readQuery_uri {url : List Char} (h : ∀ c ∈ url, c.toNat < 256) :
    readQuery (U.uri url) = readQuery (U.trim url) := by
  unfold uri
  refine readQuery_escape U fun c hc => h c ?_
  have hinit : U.trim url <+: url.dropWhile U.blank := List.rdropWhile_prefix _ _
  exact (List.dropWhile_sublist _).subset (hinit.sublist.subset hc)

/-! ## A query at the end of the URL -/

variable {v : List Char}

theorem rdropWhile_append_cons (hx : U.blank x = false) (s v : List Char) :
    (s ++ x :: v).rdropWhile U.blank = s ++ x :: v.rdropWhile U.blank := by
  induction v using List.reverseRecOn with
  | nil =>
    rw [List.rdropWhile_concat_neg _ _ _ (by simp [hx])]
    rfl
  | append_singleton v c ih =>
    rw [← List.cons_append, ← List.append_assoc, List.rdropWhile_concat, List.rdropWhile_concat]
    split_ifs
    · exact ih
    · simp

theorem rdropWhile_eq_self_iff : v.rdropWhile U.blank = v ↔ ¬ U.EndsBlank v := by
  induction v using List.reverseRecOn with
  | nil => simp [EndsBlank]
  | append_singleton v c _ =>
    rw [EndsBlank, List.getLast?_concat, Option.any_some, List.rdropWhile_concat]
    split_ifs with h
    · refine iff_of_false (fun heq => ?_) (not_not_intro h)
      have hinit : v.rdropWhile U.blank <+: v := List.rdropWhile_prefix _ _
      have hlen := hinit.length_le
      rw [heq, List.length_append, List.length_singleton] at hlen
      omega
    · exact iff_of_true rfl h

theorem trim_query {base : List Char} (hbase : base.head?.any U.blank = false) (hne : base ≠ [])
    (s : List Char) : U.trim (base ++ s) = (base ++ s).rdropWhile U.blank := by
  match base, hne with
  | c :: base, _ =>
    rw [List.head?_cons, Option.any_some] at hbase
    rw [trim, List.cons_append, List.dropWhile_cons_of_neg (by simp [hbase])]

theorem not_blank_of_uric (hx : U.uric x = true) : U.blank x = false := by
  by_contra h
  rw [Bool.not_eq_false] at h
  have huric := U.blank_not_uric x h
  rw [hx] at huric
  cases huric

/-- What stands before the value at the end of a query. -/
theorem exists_render_eq (init : List Param) (key : List Char) :
    ∃ pre, ∀ v, render (init ++ [(key, some v)]) = pre ++ '=' :: v := by
  induction init with
  | nil => exact ⟨key, fun v => rfl⟩
  | cons p init ih =>
    obtain ⟨pre, hpre⟩ := ih
    refine ⟨renderParam p ++ '&' :: pre, fun v => ?_⟩
    rw [List.append_assoc, List.cons_append, List.cons_append, ← hpre v]
    cases init <;> rfl

/-- Trimming the URL cuts the blanks off the value at its end, and nothing else. -/
theorem trim_render {base : List Char} (hbase : base.head?.any U.blank = false) (hne : base ≠ [])
    (init : List Param) (key v : List Char) :
    U.trim (base ++ '?' :: render (init ++ [(key, some v)])) =
      base ++ '?' :: render (init ++ [(key, some (v.rdropWhile U.blank))]) := by
  obtain ⟨pre, hpre⟩ := exists_render_eq init key
  have hsplit (v : List Char) : base ++ '?' :: render (init ++ [(key, some v)]) =
      (base ++ '?' :: pre) ++ '=' :: v := by
    rw [hpre, List.append_assoc, List.cons_append]
  rw [trim_query U hbase hne, hsplit, hsplit,
    rdropWhile_append_cons U (not_blank_of_uric U (U.uric_reserved '=' (by decide)))]

theorem cut_last {u v : List Char} (h : u <+: v) (init : List Param) (key : List Char) :
    Cut (init ++ [(key, some v)]) (init ++ [(key, some u)]) := by
  induction init with
  | nil => exact .last key h
  | cons p init ih => exact .cons p ih

section Query

variable {base : List Char} {init : List Param} {key v : List Char}

/-- A reader of the trimmed text gets back every parameter of a query that ends in a value exactly
when no value contains a `&`, a `#` or an escape and the last value does not end in a blank. -/
theorem readBack_trim_iff (hhash : '#' ∉ base) (hquestion : '?' ∉ base)
    (hbase : base.head?.any U.blank = false) (hne : base ≠ [])
    (hnodup : ((init ++ [(key, some v)]).map (·.1)).Nodup)
    (hplain : ∀ p ∈ init ++ [(key, some v)], PlainKey p.1) :
    ReadBack (init ++ [(key, some v)])
        (readQuery (U.trim (base ++ '?' :: render (init ++ [(key, some v)])))) ↔
      AllCarried (init ++ [(key, some v)]) ∧ ¬ U.EndsBlank v := by
  have hcut : Cut (init ++ [(key, some v)]) (init ++ [(key, some (v.rdropWhile U.blank))]) := by
    have hinit : v.rdropWhile U.blank <+: v := List.rdropWhile_prefix _ _
    exact cut_last hinit init key
  rw [trim_render U hbase hne, readBack_iff hhash hquestion hcut hnodup hplain, and_comm]
  refine and_congr_right fun _ => ?_
  rw [← rdropWhile_eq_self_iff U]
  simp

/-- Then it reads these parameters and no others. -/
theorem readQuery_trim (hhash : '#' ∉ base) (hquestion : '?' ∉ base)
    (hbase : base.head?.any U.blank = false) (hne : base ≠ [])
    (hplain : ∀ p ∈ init ++ [(key, some v)], PlainKey p.1)
    (hcarried : AllCarried (init ++ [(key, some v)])) (hend : ¬ U.EndsBlank v) :
    readQuery (U.trim (base ++ '?' :: render (init ++ [(key, some v)]))) =
      init ++ [(key, some v)] := by
  rw [trim_render U hbase hne, (rdropWhile_eq_self_iff U).2 hend,
    readQuery_append hhash hquestion, readPieces_render (by simp) hplain hcarried]

end Query

end UriRules

end Url
