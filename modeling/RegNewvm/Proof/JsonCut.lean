import RegNewvm.Proof.JsonData
import RegNewvm.Proof.JsonErrors

/-!
# Texts that are cut off

A container ends with its closing bracket, so what is decoded does not depend on what follows it
(`decode_append`), and a text that was encoded is not decoded any more when its end is missing
(`decode_truncated`).
-/

namespace RegNewvm.JsonPP

open Outcome Reader

variable {perl perl' : Interpreter} {coder reader writer : Coder} {len n m : ℕ} {d d' : Data}
  {t p q : List Char}

theorem Scalar.not_numeralStart (ht : Scalar perl coder t d) (href : d.isRef) :
    ¬ NumeralStart t := by
  cases ht with
  | null => cases href
  | true => exact not_numeralStart rfl (by decide)
  | false => exact not_numeralStart rfl (by decide)
  | numeral ht =>
    unfold numeric at href
    split_ifs at href <;> cases href
  | string ht => cases href

/-- No container and no boolean looks like a numeral. -/
theorem Item.not_numeralStart (ht : Item perl coder n t d) (href : d.isRef) : ¬ NumeralStart t := by
  cases n with
  | zero => exact Scalar.not_numeralStart ht href
  | succ n =>
    obtain ht | ⟨u, a, rfl, -, -⟩ | ⟨u, o, rfl, -, -⟩ := ht
    · exact ht.not_numeralStart href
    · exact JsonPP.not_numeralStart rfl (by decide)
    · exact JsonPP.not_numeralStart rfl (by decide)

/-- What follows a document does not change the value that is read. -/
theorem value_document_append (h : Document perl coder p d) (hnonref : ¬ coder.allowNonref)
    (q : List Char) : ∃ w v r, p = w ++ v ∧ Blank coder.relaxed w ∧ v ≠ [] ∧
      (∀ len, white coder len (v ++ q) = .ok (v ++ q)) ∧
      ∀ len, value perl coder len coder.maxDepth (v ++ q) = .ok (d, r ++ q) := by
  obtain ⟨w, t, r, rfl, hw, ht, href, hr, -⟩ := h
  have hnumeral := ht.not_numeralStart (href.resolve_left hnonref)
  refine ⟨w, t ++ r, r, rfl, hw, by simp [ht.starts.ne_nil], fun len => ?_, fun len => ?_⟩
  · rw [List.append_assoc]
    exact white_noBlank (ht.starts.noBlank _)
  · rw [List.append_assoc]
    exact value_append ht fun hstart => absurd hstart hnumeral

/-- If more text follows a container, the data are the same. -/
theorem decode_append {p q : String} (hnonref : ¬ coder.allowNonref)
    (h : decode perl coder p = .ok d) (happend : decode perl coder (p ++ q) = .ok d') :
    d = d' := by
  obtain ⟨w, v, r, hp, hw, -, hwhite, hvalue⟩ :=
    value_document_append (decode_ok h) hnonref q.toList
  have hread := ppDecodeJson_document (decode_ok happend)
  rw [String.toList_append, hp, List.append_assoc, ppDecodeJson, white_append hw, hwhite] at hread
  obtain ⟨_, ⟨⟩, h₁⟩ := bind_eq_ok.1 hread
  obtain ⟨⟨result, rest⟩, hresult, h₂⟩ := bind_eq_ok.1 h₁
  rw [hvalue] at hresult
  cases hresult
  dsimp only at h₂
  split_ifs at h₂
  exact (garbage_eq_ok.1 h₂).1

/-- From a zero on anything may follow. -/
theorem decode_append_sample : ∃ d,
    decode .plain { maxDepth := 2 } ("[[1,2],[]]" ++ " 0 junk") = .ok d ∧ sampleArray = d := by
  have hread : decode .plain { maxDepth := 2 } ("[[1,2],[]]" ++ " 0 junk") = .ok sampleArray := by
    unfold decode ppDecodeJson
    rfl
  exact ⟨_, hread, decode_append (by decide) sampleArray_decoded hread⟩

/-- A value does not depend on the levels that are allowed. -/
theorem value_unique {r : List Char} {a b : Data × List Char}
    (ha : value perl coder len n r = .ok a) (hb : value perl coder len m r = .ok b) : a = b := by
  have hle {n m : ℕ} {a b : Data × List Char} (hnm : n ≤ m)
      (ha : value perl coder len n r = .ok a) (hb : value perl coder len m r = .ok b) : a = b := by
    obtain hsame | ⟨e, hfail, -⟩ := value_cut hnm r
    · rw [ha, hb] at hsame
      exact Except.ok.inj hsame
    · rw [ha] at hfail
      cases hfail
  obtain h | h := Nat.le_total n m
  · exact hle h ha hb
  · exact (hle h hb ha).symm

/-- A value without its end is no document. -/
theorem not_document_of_cut (hnonref : ¬ coder.allowNonref) (ht : Item perl coder n (p ++ q) d)
    (hq : q ≠ []) : ¬ Document perl coder p d' := by
  intro h
  obtain ⟨w, v, r, rfl, hw, hne, -, hvalue⟩ := value_document_append h hnonref q
  have hstop : NoBlank coder.relaxed (w ++ v ++ q) := by
    rw [← List.append_nil (w ++ v ++ q)]
    exact ht.starts.noBlank []
  rw [List.append_assoc] at hstop ht
  obtain rfl := hw.eq_nil hstop
  have hwhole : value perl coder 0 n (v ++ q ++ []) = .ok (d, []) := value_append ht fun _ => nofun
  rw [List.append_nil] at hwhole
  have hrest := congrArg Prod.snd (value_unique (hvalue 0) hwhole)
  exact hq (List.append_eq_nil_iff.1 hrest).2

/-- What is missing of an encoded text, but for the line break at its end. -/
theorem exists_missing {str p q : List Char} {indent : Bool}
    (h : str ++ (if indent then ['\n'] else []) = p ++ q) (hq : q ≠ [])
    (hbreak : indent → q ≠ ['\n']) : ∃ q', q' ≠ [] ∧ str = p ++ q' := by
  cases indent with
  | false =>
    rw [if_neg (by decide), List.append_nil] at h
    exact ⟨q, hq, h⟩
  | true =>
    obtain ⟨q', c, rfl⟩ := (List.eq_nil_or_concat q).resolve_left hq
    rw [List.concat_eq_append] at hbreak h
    rw [if_pos rfl, ← List.append_assoc] at h
    obtain ⟨hstr, hlast⟩ := List.append_inj' h rfl
    refine ⟨q', ?_, hstr⟩
    rintro rfl
    exact hbreak rfl hlast.symm

/-- An encoded text is no document when its end is missing. -/
theorem not_decoded_of_cut {p q : String} (hd : WellFormed (PrintedNumber perl) d)
    (hnonref : ¬ reader.allowNonref) (hq : q ≠ "") (hbreak : writer.indent → q ≠ "\n")
    (h : encode perl' writer d = .ok (p ++ q)) (hread : decode perl reader p = .ok d') : False := by
  have hwritten := encode_eq_ok_iff.1 h
  unfold ppEncodeJson at hwritten
  by_cases href : ¬ d.isRef ∧ ¬ writer.allowNonref
  · rw [if_pos href] at hwritten
    cases hwritten
  rw [if_neg href] at hwritten
  obtain ⟨str, hstr, h₁⟩ := bind_eq_ok.1 hwritten
  obtain ⟨d'', -, hitem⟩ := item_objectToJson reader hd hstr
  have htext := Except.ok.inj h₁
  rw [String.toList_append] at htext
  obtain ⟨q', hne, rfl⟩ := exists_missing htext (fun hnil => hq (String.toList_eq_nil_iff.1 hnil))
    fun hindent hlast => hbreak hindent (String.toList_inj.1 hlast)
  exact not_document_of_cut hnonref hitem hne (decode_ok hread)

/-- An encoded text is refused when its end is missing, be it by the last character, unless that is
the line break that `indent` adds. -/
theorem decode_truncated {p q : String} (hd : WellFormed (PrintedNumber perl) d)
    (hnonref : ¬ reader.allowNonref) (hq : q ≠ "") (hbreak : writer.indent → q ≠ "\n")
    (h : encode perl' writer d = .ok (p ++ q)) :
    ∃ message, decode perl reader p = .error message := by
  cases hread : decode perl reader p with
  | error message => exact ⟨message, rfl⟩
  | ok d' => exact (not_decoded_of_cut hd hnonref hq hbreak h hread).elim

theorem decode_truncated_sample : ∃ message, decode .plain {} "[[1,2],[" = .error message := by
  have hwritten : encode .plain {} sampleArray = .ok ("[[1,2],[" ++ "]]") := rfl
  exact decode_truncated sampleArray_wellFormed (by decide) (by decide) (by decide) hwritten

end RegNewvm.JsonPP
