import RegNewvm.Proof.Json

/-!
# Options of the decoder

An option that lets the decoder take more texts does not change what it makes of the texts that it
took without the option (`decode_mono`).
-/

namespace RegNewvm.JsonPP

open Reader

variable {perl : Interpreter} {coder laxer : Coder} {n m : ℕ} {t w : List Char} {d : Data}

/-- `laxer` allows whatever `coder` does. -/
structure Coder.Laxer (laxer coder : Coder) : Prop where
  maxDepth : coder.maxDepth ≤ laxer.maxDepth
  allowNonref : coder.allowNonref → laxer.allowNonref
  relaxed : coder.relaxed → laxer.relaxed
  allowSinglequote : coder.allowSinglequote → laxer.allowSinglequote

section Mono

variable {relaxed relaxed' : Bool} (h : relaxed → relaxed')

include h

theorem Blank.mono (hw : Blank relaxed w) : Blank relaxed' w := by
  induction hw with
  | nil => exact .nil
  | space hc _ ih => exact .space hc ih
  | line hb hc _ ih => exact .line hb hc ih
  | block hb _ ih => exact .block hb ih
  | hash hrelaxed hb _ ih => exact .hash (h hrelaxed) hb ih

theorem LastBlank.mono (hw : LastBlank relaxed w) : LastBlank relaxed' w := by
  cases hw with
  | blank hw => exact .blank (hw.mono h)
  | line hw hb => exact .line (hw.mono h) hb
  | hash hw hrelaxed hb => exact .hash (hw.mono h) (h hrelaxed) hb

end Mono

section Laxer

variable (hlax : laxer.Laxer coder)

include hlax

theorem Quoted.mono {s : String} (ht : Quoted coder t s) : Quoted laxer t s := by
  obtain ⟨q, b, rfl, hq, hb⟩ := ht
  exact ⟨q, b, rfl, hq.imp_right fun h => ⟨hlax.allowSinglequote h.1, h.2⟩, hb⟩

theorem Scalar.mono (ht : Scalar perl coder t d) : Scalar perl laxer t d := by
  cases ht with
  | null => exact .null
  | true => exact .true
  | false => exact .false
  | numeral ht => exact .numeral ht
  | string ht => exact .string (ht.mono hlax)

theorem Member.mono {Value Value' : List Char → Data → Prop} {o o' : List (String × Data)}
    (hvalue : ∀ t d, Value t d → Value' t d) (ht : Member coder Value o t o') :
    Member laxer Value' o t o' := by
  obtain ⟨kt, w, w', vt, k, v, rfl, hk, hw, hw', hv, rfl⟩ := ht
  exact ⟨kt, w, w', vt, k, v, rfl, hk.mono hlax, hw.mono hlax.relaxed, hw'.mono hlax.relaxed,
    hvalue _ _ hv, rfl⟩

/-- More levels do no harm either. -/
theorem Item.mono (ht : Item perl coder n t d) (hnm : n ≤ m) : Item perl laxer m t d := by
  have hblank (w : List Char) (hw : Blank coder.relaxed w) : Blank laxer.relaxed w :=
    hw.mono hlax.relaxed
  induction n generalizing m d t with
  | zero => exact .scalar (Scalar.mono hlax ht)
  | succ n ih =>
    cases m with
    | zero => omega
    | succ m =>
      have hvalue (t : List Char) (d : Data) (ht : Item perl coder n t d) :
          Item perl laxer m t d := ih ht (Nat.le_of_succ_le_succ hnm)
      obtain ht | ⟨u, a, rfl, rfl, hu⟩ | ⟨u, o, rfl, rfl, hu⟩ := ht
      · exact Or.inl (ht.mono hlax)
      · refine Or.inr (Or.inl ⟨u, a, rfl, rfl, hu.mono hblank ?_ hlax.relaxed⟩)
        rintro a t a' ⟨v, hv, rfl⟩
        exact ⟨v, hvalue _ _ hv, rfl⟩
      · refine Or.inr (Or.inr ⟨u, o, rfl, rfl, hu.mono hblank ?_ hlax.relaxed⟩)
        exact fun _ _ _ ht => ht.mono hlax hvalue

theorem Rest.mono {r : List Char} (hr : Rest coder r) : Rest laxer r := by
  obtain hr | ⟨w, j, rfl, hw⟩ := hr
  · exact Or.inl (hr.mono hlax.relaxed)
  · exact Or.inr ⟨w, j, rfl, hw.mono hlax.relaxed⟩

theorem Document.mono {text : List Char} (h : Document perl coder text d) :
    Document perl laxer text d := by
  obtain ⟨w, t, r, rfl, hw, ht, href, hr, hnumeral⟩ := h
  exact ⟨w, t, r, rfl, hw.mono hlax.relaxed, ht.mono hlax hlax.maxDepth,
    href.imp_left hlax.allowNonref, hr.mono hlax, hnumeral⟩

/-- A text that decodes still decodes to the same data if `max_depth` is raised or `relaxed`,
`allow_nonref` or `allow_singlequote` is set. -/
theorem decode_mono {text : String} (h : decode perl coder text = .ok d) :
    decode perl laxer text = .ok d :=
  decode_document ((decode_ok h).mono hlax)

end Laxer

/-! ### A sample text -/

def sampleArray : Data := .array [.array [.number "1", .number "2"], .array []]

theorem sampleArray_decoded : decode .plain { maxDepth := 2 } "[[1,2],[]]" = .ok sampleArray := by
  unfold decode ppDecodeJson
  rfl

/-- Levels that are allowed and not needed. -/
theorem decode_mono_sample :
    decode .plain { maxDepth := 8, relaxed := true } "[[1,2],[]]" = .ok sampleArray :=
  decode_mono ⟨by decide, id, fun _ => rfl, id⟩ sampleArray_decoded

end RegNewvm.JsonPP
