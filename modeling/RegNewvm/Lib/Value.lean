import Mathlib.Data.List.Basic

/-!
# Perl scalars under `use strict`

The values a decoded document is made of, what they are in string context, what `$v->{key}` and
`@$v` give in rvalue context (or die with), and what the caller of a sub receives.
-/

namespace Perl

/-- A scalar: undefined, a string or number (by its text), an overloaded boolean object, or a
reference with its address. -/
inductive Value
  | undef
  | text (s : String)
  | bool (b : Bool)
  | array (address : ℕ) (items : List Value)
  | hash (address : ℕ) (entries : List (String × Value))

namespace Value

/-- The address part of a stringified reference. -/
def hexAddress (address : ℕ) : String := "(0x" ++ String.ofList (Nat.toDigits 16 address) ++ ")"

/-- String context; `undef` is the empty string, with a warning only. -/
def str : Value → String
  | undef => ""
  | text s => s
  | bool b => if b then "1" else "0"
  | array address _ => "ARRAY" ++ hexAddress address
  | hash address _ => "HASH" ++ hexAddress address

theorem map_str_text (strings : List String) : (strings.map text).map str = strings := by
  rw [List.map_map]
  exact List.map_id _

/-- The characters that fit into the first `n` bytes. -/
def takeBytes (n : ℕ) : List Char → List Char
  | [] => []
  | c :: s => if c.utf8Size ≤ n then c :: takeBytes (n - c.utf8Size) s else []

/-- The message for a string used as a reference; the string is cut after 32 bytes.  (Of a character
that the cut would divide nothing is kept here.) -/
def symbolicRef (s kind : String) : String :=
  "Can't use string (\"" ++ String.ofList (takeBytes 32 s.toList) ++
    (if s.utf8ByteSize ≤ 32 then "\"" else "\"...") ++ ") as " ++ kind ++
    " ref while \"strict refs\" in use"

/-- `$v->{key}`; an undefined `$v` becomes an empty hash. -/
def field (v : Value) (key : String) : Except String Value :=
  match v with
  | undef => .ok undef
  | text s => .error (symbolicRef s "a HASH")
  | bool _ => .error "Not a HASH reference"
  | array _ _ => .error "Not a HASH reference"
  | hash _ entries => .ok ((entries.lookup key).getD undef)

/-- `@$v`, read. -/
def elems (v : Value) : Except String (List Value) :=
  match v with
  | undef => .error "Can't use an undefined value as an ARRAY reference"
  | text s => .error (symbolicRef s "an ARRAY")
  | bool _ => .error "Not an ARRAY reference"
  | array _ items => .ok items
  | hash _ _ => .error "Not an ARRAY reference"

/-- `$v->{key}` does not die. -/
def HashLike : Value → Prop
  | undef => True
  | hash _ _ => True
  | _ => False

instance : DecidablePred HashLike := fun v =>
  match v with
  | undef => isTrue trivial
  | hash _ _ => isTrue trivial
  | text _ => isFalse id
  | bool _ => isFalse id
  | array _ _ => isFalse id

theorem hashLike_iff {v : Value} {key : String} : v.HashLike ↔ ∃ w, v.field key = .ok w := by
  cases v <;> simp [HashLike, field]

end Value

/-! ## Subs -/

/-- The context a sub is called in. -/
inductive Want
  | scalar
  | list

/-- `return $v` -/
def returnScalar (_ : Want) (v : Value) : List Value := [v]

/-- `return @items`: the items in list context, their number in scalar context. -/
def returnArray (want : Want) (items : List Value) : List Value :=
  match want with
  | .scalar => [.text (toString items.length)]
  | .list => items

/-- Falling off the end at an `if` whose numeric comparison is false: the value of the comparison,
which is the (defined) empty string, in scalar and in list context alike. -/
def returnFalse (_ : Want) : List Value := [.text ""]

/-- `my $v = f(...)` -/
def assignScalar (returned : List Value) : Value := returned.getLastD .undef

end Perl
