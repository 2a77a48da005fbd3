import Mathlib.Data.List.Basic
import Mathlib.Order.Nat

/-!
# Percent-encoding

`percentDecode` replaces every `%` with two hexadecimal digits behind it by the character with that
code and leaves everything else alone.  A text is unchanged by decoding exactly when it has no such
escape (`percentDecode_eq_self_iff`), since decoding an escape makes it shorter.  `escapeChar`
writes one character as an escape.
-/

namespace Url

/-- The value of a hexadecimal digit. -/
def hexVal (c : Char) : Option ℕ :=
  if 48 ≤ c.toNat ∧ c.toNat ≤ 57 then some (c.toNat - 48)
  else if 65 ≤ c.toNat ∧ c.toNat ≤ 70 then some (c.toNat - 55)
  else if 97 ≤ c.toNat ∧ c.toNat ≤ 102 then some (c.toNat - 87)
  else none

/-- The code written by two hexadecimal digits at the beginning of a text. -/
def hexPair : List Char → Option ℕ
  | a :: b :: _ =>
    match hexVal a, hexVal b with
    | some x, some y => some (16 * x + y)
    | _, _ => none
  | _ => none

def percentDecode : List Char → List Char
  | '%' :: a :: b :: rest =>
    match hexPair [a, b] with
    | some n => Char.ofNat n :: percentDecode rest
    | none => '%' :: percentDecode (a :: b :: rest)
  | c :: rest => c :: percentDecode rest
  | [] => []

/-- The code of the escape that `c` begins when `rest` follows it. -/
def escapeAt (c : Char) (rest : List Char) : Option ℕ := if c = '%' then hexPair rest else none

/-- Some `%` in the text has two hexadecimal digits behind it. -/
def hasEscape : List Char → Bool
  | [] => false
  | c :: rest => (escapeAt c rest).isSome || hasEscape rest

theorem escapeAt_of_ne {c : Char} (h : c ≠ '%') (rest : List Char) : escapeAt c rest = none :=
  if_neg h

theorem percentDecode_cons_of_none {c : Char} {rest : List Char} (h : escapeAt c rest = none) :
    percentDecode (c :: rest) = c :: percentDecode rest := by
  by_cases hc : c = '%'
  · subst hc
    rw [escapeAt, if_pos rfl] at h
    match rest, h with
    | [], _ => rfl
    | [_], _ => rfl
    | a :: b :: rest, h =>
      replace h : hexPair [a, b] = none := h
      rw [percentDecode, h]
  · rw [percentDecode]
    simp [hc]

theorem percentDecode_cons_of_some {c : Char} {rest : List Char} {n : ℕ}
    (h : escapeAt c rest = some n) :
    2 ≤ rest.length ∧ percentDecode (c :: rest) = Char.ofNat n :: percentDecode (rest.drop 2) := by
  by_cases hc : c = '%'
  · subst hc
    rw [escapeAt, if_pos rfl] at h
    match rest, h with
    | a :: b :: rest, h =>
      replace h : hexPair [a, b] = some n := h
      rw [percentDecode, h]
      exact ⟨by simp, rfl⟩
  · rw [escapeAt_of_ne hc] at h
    cases h

theorem length_percentDecode_le (s : List Char) : (percentDecode s).length ≤ s.length := by
  induction hn : s.length using Nat.strongRecOn generalizing s with
  | _ n ih =>
    cases s with
    | nil => exact Nat.zero_le _
    | cons c rest =>
      rw [List.length_cons] at hn
      cases h : escapeAt c rest with
      | none =>
        have := ih rest.length (by omega) rest rfl
        rw [percentDecode_cons_of_none h, List.length_cons]
        omega
      | some m =>
        have := ih (rest.drop 2).length (by rw [List.length_drop]; omega) _ rfl
        rw [List.length_drop] at this
        rw [(percentDecode_cons_of_some h).2, List.length_cons]
        omega

theorem percentDecode_of_not_hasEscape {s : List Char} (h : hasEscape s = false) :
    percentDecode s = s := by
  induction s with
  | nil => rfl
  | cons c rest ih =>
    rw [hasEscape, Bool.or_eq_false_iff, Option.isSome_eq_false_iff, Option.isNone_iff_eq_none] at h
    rw [percentDecode_cons_of_none h.1, ih h.2]

theorem hasEscape_of_not_mem {s : List Char} (h : '%' ∉ s) : hasEscape s = false := by
  induction s with
  | nil => rfl
  | cons c rest ih =>
    rw [List.mem_cons, not_or] at h
    rw [hasEscape, escapeAt_of_ne (Ne.symm h.1), ih h.2]
    rfl

/-- Decoding an escape makes the text shorter. -/
theorem length_percentDecode_lt {s : List Char} (h : hasEscape s = true) :
    (percentDecode s).length < s.length := by
  induction s with
  | nil => cases h
  | cons c rest ih =>
    rw [hasEscape] at h
    cases hc : escapeAt c rest with
    | none =>
      rw [hc, Option.isSome_none, Bool.false_or] at h
      rw [percentDecode_cons_of_none hc, List.length_cons, List.length_cons]
      exact Nat.succ_lt_succ (ih h)
    | some n =>
      obtain ⟨hlen, heq⟩ := percentDecode_cons_of_some hc
      have := length_percentDecode_le (rest.drop 2)
      rw [List.length_drop] at this
      rw [heq, List.length_cons, List.length_cons]
      omega

theorem percentDecode_eq_self_iff {s : List Char} : percentDecode s = s ↔ hasEscape s = false := by
  refine ⟨fun h => ?_, percentDecode_of_not_hasEscape⟩
  by_contra hs
  have := length_percentDecode_lt (by simpa using hs)
  rw [h] at this
  exact Nat.lt_irrefl _ this

/-- A prefix of `s` that decodes to `s` is `s` itself, without an escape. -/
theorem eq_of_percentDecode_eq {s t : List Char} (hsub : t <+: s) (h : percentDecode t = s) :
    t = s ∧ hasEscape s = false := by
  have hlen := length_percentDecode_le t
  rw [h] at hlen
  obtain rfl := hsub.eq_of_length_le hlen
  exact ⟨rfl, percentDecode_eq_self_iff.1 h⟩

/-! ## Separators -/

/-- A character that is neither part of an escape nor begins one. -/
def Separator (c : Char) : Prop := c ≠ '%' ∧ hexVal c = none

instance : DecidablePred Separator := fun c =>
  inferInstanceAs (Decidable (c ≠ '%' ∧ hexVal c = none))

theorem hexPair_append_separator {c : Char} (hc : Separator c) (s t : List Char) :
    hexPair (s ++ c :: t) = hexPair s := by
  match s with
  | [] => cases t <;> simp [hexPair, hc.2]
  | [a] => simp [hexPair, hc.2]
  | _ :: _ :: _ => rfl

theorem hasEscape_append_separator {c : Char} (hc : Separator c) (s t : List Char) :
    hasEscape (s ++ c :: t) = (hasEscape s || hasEscape t) := by
  induction s with
  | nil => simp [hasEscape, escapeAt_of_ne hc.1]
  | cons a s ih =>
    have h : escapeAt a (s ++ c :: t) = escapeAt a s := by
      simp only [escapeAt, hexPair_append_separator hc]
    rw [List.cons_append, hasEscape, hasEscape, h, ih, Bool.or_assoc]

/-! ## Writing escapes -/

/-- An upper-case hexadecimal digit. -/
def hexDigit (n : ℕ) : Char := if n < 10 then Char.ofNat (48 + n) else Char.ofNat (55 + n)

/-- `%XX`, for a code below 256. -/
def escapeChar (c : Char) : List Char :=
  ['%', hexDigit (c.toNat / 16 % 16), hexDigit (c.toNat % 16)]

theorem hexVal_hexDigit {n : ℕ} (h : n < 16) : hexVal (hexDigit n) = some n := by
  have checked : ∀ n : Fin 16, hexVal (hexDigit n) = some n.val := by decide
  exact checked ⟨n, h⟩

theorem not_mem_escapeChar {x : Char} (hx : Separator x) (c : Char) : x ∉ escapeChar c := by
  have hdigit {n : ℕ} (hn : n < 16) : x ≠ hexDigit n := by
    rintro rfl
    have := hx.2
    rw [hexVal_hexDigit hn] at this
    cases this
  simp only [escapeChar, List.mem_cons, List.not_mem_nil, or_false, not_or]
  exact ⟨hx.1, hdigit (Nat.mod_lt _ (by decide)), hdigit (Nat.mod_lt _ (by decide))⟩

theorem percentDecode_escapeChar {c : Char} (hc : c.toNat < 256) (s : List Char) :
    percentDecode (escapeChar c ++ s) = c :: percentDecode s := by
  have h : escapeAt '%' (hexDigit (c.toNat / 16 % 16) :: hexDigit (c.toNat % 16) :: s) =
      some c.toNat := by
    rw [escapeAt, if_pos rfl, hexPair, hexVal_hexDigit (Nat.mod_lt _ (by decide)),
      hexVal_hexDigit (Nat.mod_lt _ (by decide)), Nat.mod_eq_of_lt (by omega)]
    exact congrArg some (Nat.div_add_mod c.toNat 16)
  exact (percentDecode_cons_of_some h).2.trans (by rw [Char.ofNat_toNat]; rfl)

end Url
