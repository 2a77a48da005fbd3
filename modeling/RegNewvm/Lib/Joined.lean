import RegNewvm.Lib.Uri

/-!
# Several values in one

A list of texts joined with a separator character, as the value of one parameter.  Splitting gives
the list back exactly when no text contains the separator (`splitOn_join_iff`); the joined text is
carried by concatenation exactly when every text is (`carried_join_iff`), since a separator cannot
take part in an escape.
-/

namespace Url

variable {x : Char} {texts texts' : List (List Char)}

theorem join_cons_cons (x : Char) (s t : List Char) (texts : List (List Char)) :
    [x].intercalate (s :: t :: texts) = s ++ x :: [x].intercalate (t :: texts) := by
  rw [List.intercalate_cons_cons, List.append_assoc, List.singleton_append]

/-- Induction on the texts of a join. -/
theorem join_induction {motive : List (List Char) → Prop} (nil : motive [])
    (single : ∀ s, motive [s])
    (cons : ∀ s t texts, motive (t :: texts) → motive (s :: t :: texts)) :
    ∀ texts, motive texts
  | [] => nil
  | [s] => single s
  | s :: t :: texts => cons s t texts (join_induction nil single cons (t :: texts))

theorem splitOn_join_iff (hne : texts ≠ []) :
    ([x].intercalate texts).splitOn x = texts ↔ ∀ s ∈ texts, x ∉ s := by
  refine ⟨fun h s hs => ?_, fun h => List.splitOn_intercalate x h hne⟩
  rw [← h] at hs
  exact not_mem_of_mem_splitOn hs

theorem mem_join_iff {c : Char} (hc : c ≠ x) (texts : List (List Char)) :
    c ∈ [x].intercalate texts ↔ ∃ s ∈ texts, c ∈ s := by
  induction texts using join_induction with
  | nil => simp
  | single s => simp
  | cons s t texts ih =>
    rw [join_cons_cons, List.mem_append, List.mem_cons, ih, List.exists_mem_cons_iff]
    simp [hc]

theorem hasEscape_join (hx : Separator x) (texts : List (List Char)) :
    hasEscape ([x].intercalate texts) = texts.any hasEscape := by
  induction texts using join_induction with
  | nil => rfl
  | single s => simp
  | cons s t texts ih => rw [List.any_cons, join_cons_cons, hasEscape_append_separator hx, ih]

theorem carried_join_iff (hx : Separator x) (hand : x ≠ '&') (hhash : x ≠ '#')
    (texts : List (List Char)) : Carried ([x].intercalate texts) ↔ ∀ s ∈ texts, Carried s := by
  unfold Carried
  rw [mem_join_iff hand.symm, mem_join_iff hhash.symm, hasEscape_join hx, List.any_eq_false]
  constructor
  · rintro ⟨h₁, h₂, h₃⟩ s hs
    exact ⟨fun h => h₁ ⟨s, hs, h⟩, fun h => h₂ ⟨s, hs, h⟩, by simpa using h₃ s hs⟩
  · intro h
    refine ⟨?_, ?_, fun s hs => by simp [(h s hs).2.2]⟩
    · rintro ⟨s, hs, hmem⟩
      exact (h s hs).1 hmem
    · rintro ⟨s, hs, hmem⟩
      exact (h s hs).2.1 hmem

/-- The joined text ends as its last text does, when the separator is no blank. -/
theorem endsBlank_join_iff (U : UriRules) (hx : U.blank x = false) (hne : texts ≠ []) :
    U.EndsBlank ([x].intercalate texts) ↔ U.EndsBlank (texts.getLast hne) := by
  induction texts using join_induction with
  | nil => exact absurd rfl hne
  | single s => simp
  | cons s t texts ih =>
    rw [List.getLast_cons (List.cons_ne_nil t texts), ← ih (List.cons_ne_nil t texts),
      join_cons_cons]
    unfold UriRules.EndsBlank
    rw [List.getLast?_append, List.getLast?_cons]
    cases h : ([x].intercalate (t :: texts)).getLast? <;> simp [hx]

end Url
