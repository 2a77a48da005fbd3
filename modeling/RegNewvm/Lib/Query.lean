import RegNewvm.Lib.Percent
import Mathlib.Data.List.Infix
import Mathlib.Data.List.TakeWhile

/-!
# Reading a query

`readQuery` is the ordinary reader of the query of a URL: cut at the first `#`, take what follows
the first `?`, split at `&`, split each piece at its first `=`, and percent-decode both sides.
`render` writes parameters by plain concatenation, without any encoding.

Plain concatenation is read back exactly when no value contains a `&`, a `#` or a percent escape
(`Carried`, `readBack_iff`).  The statement allows the end of the last value to have been cut
off on the way (`Cut`); then nothing may have been cut.
-/

namespace Url

/-- A parameter; `none` for a name that stands without `=`. -/
abbrev Param := List Char × Option (List Char)

def cutFragment (s : List Char) : List Char := s.takeWhile (· ≠ '#')

def afterQuestion (s : List Char) : List Char := (s.dropWhile (· ≠ '?')).tail

def readPair (piece : List Char) : Param :=
  if '=' ∈ piece then
    (percentDecode (piece.takeWhile (· ≠ '=')),
      some (percentDecode (piece.dropWhile (· ≠ '=')).tail))
  else (percentDecode piece, none)

/-- Read a text that follows the `?`. -/
def readPieces (s : List Char) : List Param := ((cutFragment s).splitOn '&').map readPair

def readQuery (url : List Char) : List Param :=
  ((afterQuestion (cutFragment url)).splitOn '&').map readPair

/-- The values given for `key`, in order. -/
def valuesOf (key : List Char) (params : List Param) : List (Option (List Char)) :=
  (params.filter (·.1 = key)).map (·.2)

/-! ## Writing -/

def renderParam : Param → List Char
  | (key, none) => key
  | (key, some value) => key ++ '=' :: value

/-- The parameters joined with `&`. -/
def render : List Param → List Char
  | [] => []
  | [p] => renderParam p
  | p :: q :: ps => renderParam p ++ '&' :: render (q :: ps)

/-- A value that plain concatenation carries. -/
def Carried (value : List Char) : Prop := '&' ∉ value ∧ '#' ∉ value ∧ hasEscape value = false

instance : DecidablePred Carried := fun value =>
  inferInstanceAs (Decidable ('&' ∉ value ∧ '#' ∉ value ∧ hasEscape value = false))

/-- A parameter name without special characters. -/
def PlainKey (key : List Char) : Prop := Carried key ∧ '=' ∉ key

instance : DecidablePred PlainKey := fun key =>
  inferInstanceAs (Decidable (Carried key ∧ '=' ∉ key))

/-! ## Lists -/

section Lists

variable {α : Type*} [DecidableEq α] {x : α} {s t : List α}

theorem takeWhile_append_cons (h : x ∉ s) : (s ++ x :: t).takeWhile (· ≠ x) = s := by
  rw [List.takeWhile_append_of_pos fun a ha => by simpa using ne_of_mem_of_not_mem ha h]
  simp

theorem dropWhile_append_cons (h : x ∉ s) : (s ++ x :: t).dropWhile (· ≠ x) = x :: t := by
  rw [List.dropWhile_append_of_pos fun a ha => by simpa using ne_of_mem_of_not_mem ha h]
  simp

theorem takeWhile_eq_self (h : x ∉ s) : s.takeWhile (· ≠ x) = s :=
  List.takeWhile_eq_self_iff.2 fun a ha => by simpa using ne_of_mem_of_not_mem ha h

theorem dropWhile_eq_nil (h : x ∉ s) : s.dropWhile (· ≠ x) = [] :=
  List.dropWhile_eq_nil_iff.2 fun a ha => by simpa using ne_of_mem_of_not_mem ha h

/-- Induction on the pieces between separators. -/
theorem split_induction (x : α) {motive : List α → Prop} (last : ∀ s, x ∉ s → motive s)
    (cons : ∀ s t, x ∉ s → motive t → motive (s ++ x :: t)) (s : List α) : motive s := by
  induction hn : s.length using Nat.strongRecOn generalizing s with
  | _ n ih =>
    by_cases h : x ∈ s
    · obtain ⟨a, b, rfl, ha⟩ := List.eq_append_cons_of_mem h
      rw [List.length_append, List.length_cons] at hn
      exact cons a b ha (ih b.length (by omega) b rfl)
    · exact last s h

theorem not_mem_of_mem_splitOn {piece : List α} (h : piece ∈ s.splitOn x) : x ∉ piece := by
  induction s using split_induction x with
  | last s hs =>
    rw [List.splitOn_eq_singleton hs, List.mem_singleton] at h
    exact h ▸ hs
  | cons s t hs ih =>
    rw [List.splitOn_append_cons_self_of_not_mem hs, List.mem_cons] at h
    obtain rfl | h := h
    · exact hs
    · exact ih h

theorem mem_of_mem_splitOn {piece : List α} {a : α} (h : piece ∈ s.splitOn x) (ha : a ∈ piece) :
    a ∈ s := by
  induction s using split_induction x with
  | last s hs =>
    rw [List.splitOn_eq_singleton hs, List.mem_singleton] at h
    exact h ▸ ha
  | cons s t hs ih =>
    rw [List.splitOn_append_cons_self_of_not_mem hs, List.mem_cons] at h
    obtain rfl | h := h
    · exact List.mem_append_left _ ha
    · exact List.mem_append_right _ (List.mem_cons_of_mem x (ih h))

/-- The first piece reaches up to the first separator. -/
theorem exists_splitOn_eq_cons (x : α) (s : List α) :
    ∃ pieces, s.splitOn x = s.takeWhile (· ≠ x) :: pieces := by
  by_cases h : x ∈ s
  · obtain ⟨a, b, rfl, ha⟩ := List.eq_append_cons_of_mem h
    exact ⟨b.splitOn x, by
      rw [List.splitOn_append_cons_self_of_not_mem ha, takeWhile_append_cons ha]⟩
  · exact ⟨[], by rw [List.splitOn_eq_singleton h, takeWhile_eq_self h]⟩

end Lists

theorem cutFragment_append {s : List Char} (h : '#' ∉ s) (t : List Char) :
    cutFragment (s ++ t) = s ++ cutFragment t := by
  rw [cutFragment, List.takeWhile_append_of_pos fun a ha => by
    simpa using ne_of_mem_of_not_mem ha h]
  rfl

theorem readQuery_append {base : List Char} (hhash : '#' ∉ base) (hquestion : '?' ∉ base)
    (q : List Char) : readQuery (base ++ '?' :: q) = readPieces q := by
  have h : cutFragment (base ++ '?' :: q) = base ++ '?' :: cutFragment q := by
    rw [cutFragment_append hhash]
    rfl
  rw [readQuery, h, afterQuestion, dropWhile_append_cons hquestion]
  rfl

/-! ## Reading one parameter -/

theorem readPair_key {key : List Char} (h : PlainKey key) : readPair key = (key, none) := by
  rw [readPair, if_neg h.2, percentDecode_of_not_hasEscape h.1.2.2]

theorem readPair_value {key : List Char} (h : PlainKey key) (v : List Char) :
    readPair (key ++ '=' :: v) = (key, some (percentDecode v)) := by
  rw [readPair, if_pos (by simp), takeWhile_append_cons h.2, dropWhile_append_cons h.2,
    percentDecode_of_not_hasEscape h.1.2.2]
  rfl

/-- The part of a value that the reader takes for it. -/
def seen (v : List Char) : List Char := (cutFragment v).takeWhile (· ≠ '&')

theorem seen_initial (v : List Char) : seen v <+: v := by
  have hpiece : seen v <+: cutFragment v := List.takeWhile_prefix _
  have hfragment : cutFragment v <+: v := List.takeWhile_prefix _
  exact hpiece.trans hfragment

theorem seen_append (v t : List Char) : seen (v ++ '&' :: t) = seen v := by
  by_cases hhash : '#' ∈ v
  · obtain ⟨a, b, rfl, ha⟩ := List.eq_append_cons_of_mem hhash
    simp only [seen, cutFragment, List.append_assoc, List.cons_append, takeWhile_append_cons ha]
  · rw [seen, seen, cutFragment_append hhash, cutFragment, cutFragment, takeWhile_eq_self hhash]
    by_cases hand : '&' ∈ v
    · obtain ⟨a, b, rfl, ha⟩ := List.eq_append_cons_of_mem hand
      rw [List.append_assoc, List.cons_append, takeWhile_append_cons ha, takeWhile_append_cons ha]
    · rw [takeWhile_eq_self hand, List.takeWhile_cons_of_pos (by decide),
        takeWhile_append_cons hand]

/-- What holds of every character of the parameters and of the separators holds of the query. -/
theorem forall_mem_render {P : Char → Prop} (hequals : P '=') (hand : P '&') {ps : List Param}
    (hps : ∀ p ∈ ps, (∀ c ∈ p.1, P c) ∧ ∀ v, p.2 = some v → ∀ c ∈ v, P c) :
    ∀ c ∈ render ps, P c := by
  have hparam (p : Param) (hp : (∀ c ∈ p.1, P c) ∧ ∀ v, p.2 = some v → ∀ c ∈ v, P c) :
      ∀ c ∈ renderParam p, P c := by
    rcases p with ⟨key, _ | v⟩
    · exact hp.1
    · unfold renderParam
      rw [List.forall_mem_append, List.forall_mem_cons]
      exact ⟨hp.1, hequals, hp.2 v rfl⟩
  induction ps with
  | nil => simp [render]
  | cons p ps ih =>
    obtain ⟨hp, hps⟩ := List.forall_mem_cons.1 hps
    cases ps with
    | nil => exact hparam p hp
    | cons q ps =>
      unfold render
      rw [List.forall_mem_append, List.forall_mem_cons]
      exact ⟨hparam p hp, hand, ih hps⟩

/-- The first parameter read is the first one written, with the part of its value that is seen. -/
theorem exists_readPieces_eq_cons {key : List Char} (h : PlainKey key) (v : List Char) :
    ∃ params, readPieces (key ++ '=' :: v) = (key, some (percentDecode (seen v))) :: params := by
  have hcut : cutFragment (key ++ '=' :: v) = key ++ '=' :: cutFragment v := by
    rw [cutFragment_append h.1.2.1]
    rfl
  obtain ⟨pieces, hpieces⟩ := exists_splitOn_eq_cons '&' (key ++ '=' :: cutFragment v)
  have hfirst : (key ++ '=' :: cutFragment v).takeWhile (· ≠ '&') = key ++ '=' :: seen v := by
    rw [List.takeWhile_append_of_pos fun a ha => by simpa using ne_of_mem_of_not_mem ha h.1.1]
    rfl
  refine ⟨pieces.map readPair, ?_⟩
  rw [readPieces, hcut, hpieces, hfirst, List.map_cons, readPair_value h]

theorem carried_of_percentDecode_seen {u v : List Char} (hu : u <+: v)
    (h : percentDecode (seen u) = v) : u = v ∧ Carried v := by
  obtain ⟨heq, hescape⟩ := eq_of_percentDecode_eq ((seen_initial u).trans hu) h
  obtain rfl : u = v := hu.eq_of_length_le (by
    rw [← heq]
    exact (seen_initial u).length_le)
  refine ⟨rfl, ?_, ?_, hescape⟩
  · intro hmem
    rw [← heq, seen] at hmem
    simpa using List.mem_takeWhile_imp hmem
  · intro hmem
    rw [← heq] at hmem
    simpa using List.mem_takeWhile_imp ((List.takeWhile_sublist _).subset hmem)

theorem renderParam_clean {p : Param} (hkey : PlainKey p.1) (hp : ∀ v, p.2 = some v → Carried v) :
    '&' ∉ renderParam p ∧ '#' ∉ renderParam p ∧ readPair (renderParam p) = p := by
  obtain ⟨key, value⟩ := p
  cases value with
  | none => exact ⟨hkey.1.1, hkey.1.2.1, readPair_key hkey⟩
  | some v =>
    have hv := hp v rfl
    refine ⟨?_, ?_, ?_⟩
    · simp [renderParam, hkey.1.1, hv.1]
    · simp [renderParam, hkey.1.2.1, hv.2.1]
    · rw [renderParam, readPair_value hkey, percentDecode_of_not_hasEscape hv.2.2]

theorem readPieces_renderParam {p : Param} (hkey : PlainKey p.1)
    (hp : ∀ v, p.2 = some v → Carried v) : readPieces (renderParam p) = [p] := by
  obtain ⟨hand, hhash, hread⟩ := renderParam_clean hkey hp
  rw [readPieces, cutFragment, takeWhile_eq_self hhash, List.splitOn_eq_singleton hand,
    List.map_singleton, hread]

theorem readPieces_renderParam_append {p : Param} (hkey : PlainKey p.1)
    (hp : ∀ v, p.2 = some v → Carried v) (q : List Char) :
    readPieces (renderParam p ++ '&' :: q) = p :: readPieces q := by
  obtain ⟨hand, hhash, hread⟩ := renderParam_clean hkey hp
  have hcut : cutFragment (renderParam p ++ '&' :: q) = renderParam p ++ '&' :: cutFragment q := by
    rw [cutFragment_append hhash]
    rfl
  rw [readPieces, hcut, List.splitOn_append_cons_self_of_not_mem hand, List.map_cons, hread]
  rfl

/-! ## The round trip -/

/-- `Cut ps qs`: the parameters `ps`, of which the last, a value, may have lost its end in `qs`. -/
inductive Cut : List Param → List Param → Prop
  | last (key : List Char) {u v : List Char} (h : u <+: v) : Cut [(key, some v)] [(key, some u)]
  | cons (p : Param) {ps qs : List Param} (h : Cut ps qs) : Cut (p :: ps) (p :: qs)

theorem Cut.render_cons {p : Param} {ps qs : List Param} (h : Cut ps qs) :
    render (p :: qs) = renderParam p ++ '&' :: render qs := by
  cases h <;> rfl

theorem valuesOf_cons_self (key : List Char) (value : Option (List Char)) (params : List Param) :
    valuesOf key ((key, value) :: params) = value :: valuesOf key params := by
  simp [valuesOf]

theorem valuesOf_cons_of_ne {key : List Char} {p : Param} (h : p.1 ≠ key) (params : List Param) :
    valuesOf key (p :: params) = valuesOf key params := by
  simp [valuesOf, h]

theorem valuesOf_of_not_mem {key : List Char} {params : List Param}
    (h : key ∉ params.map (·.1)) : valuesOf key params = [] := by
  rw [valuesOf, List.map_eq_nil_iff, List.filter_eq_nil_iff]
  intro p hp
  have hne : p.1 ≠ key := fun heq => h (heq ▸ List.mem_map_of_mem hp)
  simpa using hne

/-- Every value of `ps` is read exactly once and unchanged. -/
def ReadBack (ps read : List Param) : Prop :=
  ∀ key v, (key, some v) ∈ ps → valuesOf key read = [some v]

/-- All values of `ps` are carried. -/
def AllCarried (ps : List Param) : Prop := ∀ p ∈ ps, ∀ v, p.2 = some v → Carried v

theorem allCarried_cons {p : Param} {ps : List Param} :
    AllCarried (p :: ps) ↔ (∀ v, p.2 = some v → Carried v) ∧ AllCarried ps :=
  List.forall_mem_cons

theorem readPieces_render : ∀ {ps : List Param}, ps ≠ [] → (∀ p ∈ ps, PlainKey p.1) →
    AllCarried ps → readPieces (render ps) = ps
  | [], h, _, _ => absurd rfl h
  | [p], _, hplain, hps => by
    rw [render]
    exact readPieces_renderParam (hplain p (by simp)) (hps p (by simp))
  | p :: q :: ps, _, hplain, hps => by
    obtain ⟨hkey, hplain⟩ := List.forall_mem_cons.1 hplain
    obtain ⟨hp, hps⟩ := allCarried_cons.1 hps
    rw [render, readPieces_renderParam_append hkey hp,
      readPieces_render (List.cons_ne_nil q ps) hplain hps]

theorem readBack_self {ps : List Param} (h : (ps.map (·.1)).Nodup) : ReadBack ps ps := by
  induction ps with
  | nil => intro key v hmem; cases hmem
  | cons p ps ih =>
    rw [List.map_cons, List.nodup_cons] at h
    intro key v hmem
    obtain rfl | hmem := List.mem_cons.1 hmem
    · rw [valuesOf_cons_self, valuesOf_of_not_mem h.1]
    · have hne : p.1 ≠ key := fun heq => h.1 (heq ▸ List.mem_map_of_mem hmem)
      rw [valuesOf_cons_of_ne hne, ih h.2 key v hmem]

theorem ReadBack.tail {p : Param} {ps read : List Param} (hp : p.1 ∉ ps.map (·.1))
    (h : ReadBack (p :: ps) (p :: read)) : ReadBack ps read := by
  intro key v hmem
  have hne : p.1 ≠ key := fun heq => hp (heq ▸ List.mem_map_of_mem hmem)
  rw [← valuesOf_cons_of_ne hne, h key v (List.mem_cons_of_mem p hmem)]

/-- If the first value written is read back, all of it was seen. -/
theorem carried_of_readBack {key u v : List Char} {ps : List Param} (hkey : PlainKey key)
    {t : List Char} (hu : seen t = seen u) (huv : u <+: v)
    (h : ReadBack ((key, some v) :: ps) (readPieces (key ++ '=' :: t))) : u = v ∧ Carried v := by
  obtain ⟨params, hread⟩ := exists_readPieces_eq_cons hkey t
  have hvalues := h key v List.mem_cons_self
  rw [hread, valuesOf_cons_self, List.cons_eq_cons, Option.some_inj, hu] at hvalues
  exact carried_of_percentDecode_seen huv hvalues.1

theorem allCarried_of_readBack {ps qs : List Param} (h : Cut ps qs) (hnodup : (ps.map (·.1)).Nodup)
    (hplain : ∀ p ∈ ps, PlainKey p.1) (hread : ReadBack ps (readPieces (render qs))) :
    qs = ps ∧ AllCarried ps := by
  induction h with
  | @last key u v huv =>
    obtain ⟨rfl, hv⟩ := carried_of_readBack (hplain _ List.mem_cons_self) rfl huv hread
    exact ⟨rfl, by simpa [AllCarried] using hv⟩
  | @cons p ps qs h ih =>
    rw [List.map_cons, List.nodup_cons] at hnodup
    obtain ⟨hkey, hplain⟩ := List.forall_mem_cons.1 hplain
    rw [h.render_cons] at hread
    have hp : ∀ v, p.2 = some v → Carried v := by
      obtain ⟨key, value⟩ := p
      rintro v rfl
      rw [renderParam, List.append_assoc, List.cons_append] at hread
      exact (carried_of_readBack hkey (seen_append v _) List.prefix_rfl hread).2
    rw [readPieces_renderParam_append hkey hp] at hread
    obtain ⟨rfl, hps⟩ := ih hnodup.2 hplain (hread.tail hnodup.1)
    exact ⟨rfl, allCarried_cons.2 ⟨hp, hps⟩⟩

/-- Parameters written by plain concatenation are read back exactly when nothing was cut off and no
value contains a `&`, a `#` or an escape. -/
theorem readBack_iff {base : List Char} (hhash : '#' ∉ base) (hquestion : '?' ∉ base)
    {ps qs : List Param} (h : Cut ps qs) (hnodup : (ps.map (·.1)).Nodup)
    (hplain : ∀ p ∈ ps, PlainKey p.1) :
    ReadBack ps (readQuery (base ++ '?' :: render qs)) ↔ qs = ps ∧ AllCarried ps := by
  rw [readQuery_append hhash hquestion]
  refine ⟨allCarried_of_readBack h hnodup hplain, ?_⟩
  rintro ⟨rfl, hps⟩
  have hne : qs ≠ [] := by cases h <;> simp
  rw [readPieces_render hne hplain hps]
  exact readBack_self hnodup

end Url
