import RegNewvm.Lib.Reader
import RegNewvm.Lib.Value
import Mathlib.Data.List.Sort

/-!
# `JSON::PP`

The decoder and the encoder of the module `JSON::PP` that is installed beside the scripts, with the
options that do not hand over to other code.  `$text` is a list of characters; the cursor (`$at` and
the character `$ch` before it) is the list of the characters from `$ch` on, so that `next_chr` takes
its tail and `$at` is `offset`.

A container is decoded and encoded by recursion on the number of levels that `max_depth` still
allows.
-/

namespace RegNewvm.JsonPP

open Perl

/-- What is decoded and encoded.  A number is the string that it is in string context. -/
inductive Data
  | null
  | bool (b : Bool)
  | number (text : String)
  | string (s : String)
  | array (items : List Data)
  | hash (entries : List (String × Data))

namespace Data

/-- `ref $obj`; the two booleans are objects. -/
def isRef : Data → Bool
  | null => false
  | bool _ => true
  | number _ => false
  | string _ => false
  | array _ => true
  | hash _ => true

end Data

/-- The fields and options of a `JSON::PP` object, as `new` sets them. -/
structure Coder where
  maxDepth : ℕ := 512
  allowNonref : Bool := false
  relaxed : Bool := false
  allowSinglequote : Bool := false
  indent : Bool := false
  indentLength : ℕ := 3
  canonical : Bool := false
  spaceBefore : Bool := false
  spaceAfter : Bool := false
  ascii : Bool := false
  latin1 : Bool := false
  escapeSlash : Bool := false

/-- What the module leaves to the interpreter. -/
structure Interpreter where
  /-- `$max_intsize`, the digits of the longest integer that is not printed with an exponent. -/
  maxIntsize : ℕ
  /-- `\d` -/
  digit : Char → Bool
  digit_latin : ∀ c : Char, c.toNat < 256 → digit c = c.isDigit
  /-- The order in which `keys` lists a hash. -/
  keys : List (String × Data) → List (String × Data)
  keys_perm : ∀ entries, (keys entries).Perm entries
  /-- `0 + $v` in string context. -/
  numify : String → String
  /-- Where a container is stored. -/
  address : Data → ℕ

/-- An interpreter that lists hashes as they are stored and prints numbers as they were read. -/
def Interpreter.plain : Interpreter where
  maxIntsize := 20
  digit := Char.isDigit
  digit_latin _ _ := rfl
  keys := id
  keys_perm _ := .refl _
  numify := id
  address _ := 0

/-! ## Errors -/

/-- The arguments of `decode_error`, with `$at` at the call. -/
structure Failure where
  error : String
  offset : ℕ
  noRep : Bool := false

/-- `sprintf('\x\x7b%x\x7d', $c)` -/
def hexEscape (c : Char) : String :=
  "\\x\x7b" ++ String.ofList (Nat.toDigits 16 c.toNat) ++ "\x7d"

/-- How `decode_error` shows a character. -/
def shown (c : Char) : String :=
  if c = '\x07' then "\\a"
  else if c = '\t' then "\\t"
  else if c = '\n' then "\\n"
  else if c = '\r' then "\\r"
  else if c = '\x0c' then "\\f"
  else if c.toNat < 0x20 then hexEscape c
  else if c = '\\' then "\\\\"
  else if c.toNat < 0x80 then c.toString
  else hexEscape c

/-- The loop that builds `$mess`. -/
def showBefore : List Char → String → String
  | [], mess => mess
  | c :: rest, mess =>
    if 20 ≤ (mess ++ shown c).length then mess ++ shown c ++ "..."
    else showBefore rest (mess ++ shown c)

/-- The message that `decode_error` dies with. -/
def decodeError (text : List Char) (failure : Failure) : String :=
  let mess := showBefore (text.drop failure.offset) ""
  let mess := if mess = "" then "(end of string)" else mess
  if failure.noRep then failure.error
  else failure.error ++ ", at character offset " ++ toString failure.offset ++
    " (before \"" ++ mess ++ "\")"

def malformed : String := "malformed JSON string, neither array, object, number, string or atom"

def nestingLevel : String :=
  "json text or perl structure exceeds maximum nesting level (max_depth set too low?)"

/-! ## Decoding -/

section Decode

variable (perl : Interpreter) (coder : Coder) (len : ℕ)

/-- `$at` while `$ch` is the head of `r`, or undefined at the end of the text. -/
def offset (r : List Char) : ℕ := if r = [] then len else len - r.length + 1

mutual

/-- `white` -/
def white : List Char → Except Failure (List Char)
  | [] => .ok []
  | ch :: r =>
    if ch ≤ ' ' then white r
    else if ch = '/' then
      match r with
      | '/' :: r => lineComment (fun ch => ch = '\n' ∨ ch = '\r') r
      | '*' :: r => blockComment r
      | r => .error { error := malformed, offset := offset len r - 1 }
    else if coder.relaxed ∧ ch = '#' then lineComment (fun ch => ch = '\n') r
    else .ok (ch :: r)

/-- A comment up to the end of its line, and on. -/
def lineComment (ends : Char → Bool) : List Char → Except Failure (List Char)
  | [] => .ok []
  | ch :: r => if ends ch then white r else lineComment ends r

/-- A comment up to its closing mark, and on. -/
def blockComment : List Char → Except Failure (List Char)
  | [] => .error { error := "Unterminated comment", offset := len }
  | '*' :: '/' :: r => white r
  | _ :: r => blockComment r

end

/-- `%escapes` -/
def escapes : Char → Option Char
  | 'b' => some '\x08'
  | 't' => some '\t'
  | 'n' => some '\n'
  | 'f' => some '\x0c'
  | 'r' => some '\r'
  | '\\' => some '\\'
  | '"' => some '"'
  | '/' => some '/'
  | _ => none

/-- `[0-9a-fA-F]` -/
def isHex (c : Char) : Bool :=
  c.isDigit || ('a' ≤ c && c ≤ 'f') || ('A' ≤ c && c ≤ 'F')

def hexVal (c : Char) : ℕ :=
  if c.isDigit then c.toNat - '0'.toNat
  else if 'a' ≤ c then c.toNat - 'a'.toNat + 10
  else c.toNat - 'A'.toNat + 10

/-- `hex($u)` -/
def hex (u : List Char) : ℕ := u.foldl (fun n c => n * 16 + hexVal c) 0

/-- `_decode_surrogates` -/
def decodeSurrogates (high low : ℕ) : Char :=
  Char.ofNat (0x10000 + (high - 0xD800) * 0x400 + (low - 0xDC00))

def endOfString : String := "unexpected end of string while parsing JSON string"

/-- The loop of `string` from `next_chr` on.  `utf16` is the high surrogate that waits for its low
one, and `s` what was read so far. -/
def stringLoop (boundChar : Char) :
    Option ℕ → List Char → List Char → Except Failure (List Char × List Char)
  | _, _, [] => .error { error := endOfString, offset := len }
  | utf16, s, ch :: r =>
    if ch = boundChar then
      if utf16.isSome then
        .error { error := "missing low surrogate character in surrogate pair",
                 offset := offset len r }
      else .ok (s, r)
    else if ch = '\\' then
      match r with
      | [] => .error { error := "illegal backslash escape sequence in string", offset := len - 2 }
      | e :: r =>
        match escapes e with
        | some c => stringLoop boundChar utf16 (s ++ [c]) r
        | none =>
          if e = 'u' then
            match r with
            | a :: b :: c :: d :: r =>
              let u := hex [a, b, c, d]
              if ¬ [a, b, c, d].all isHex then
                .error { error := endOfString,
                         offset := offset len ((a :: b :: c :: d :: r).dropWhile isHex) }
              else if 0xD800 ≤ u ∧ u ≤ 0xDBFF then stringLoop boundChar (some u) s r
              else if 0xDC00 ≤ u ∧ u ≤ 0xDFFF then
                match utf16 with
                | none =>
                  .error { error := "missing high surrogate character in surrogate pair",
                           offset := offset len (d :: r) }
                | some high => stringLoop boundChar none (s ++ [decodeSurrogates high u]) r
              else if utf16.isSome then
                .error { error := "surrogate pair expected", offset := offset len (d :: r) }
              else stringLoop boundChar none (s ++ [Char.ofNat u]) r
            | r => .error { error := endOfString, offset := offset len (r.dropWhile isHex) }
          else
            .error { error := "illegal backslash escape sequence in string",
                     offset := offset len (e :: r) - 2 }
    else if ch < ' ' ∨ ch = '"' then
      .error { error := "invalid character encountered while parsing JSON string",
               offset := offset len (ch :: r) - 1 }
    else stringLoop boundChar utf16 (s ++ [ch]) r

/-- `$ch eq '"' or ($singlequote and $ch eq "'")` -/
def isQuote (ch : Char) : Prop := ch = '"' ∨ (coder.allowSinglequote ∧ ch = '\'')

instance (ch : Char) : Decidable (isQuote coder ch) :=
  inferInstanceAs (Decidable (ch = '"' ∨ (coder.allowSinglequote ∧ ch = '\'')))

/-- `string` -/
def string : List Char → Except Failure (String × List Char)
  | [] => .error { error := endOfString, offset := len }
  | ch :: r =>
    if isQuote coder ch then do
      let (s, r) ← stringLoop len ch none [] r
      return (String.ofList s, r)
    else .error { error := endOfString, offset := offset len (ch :: r) }

/-- `word` -/
def word (r : List Char) : Except Failure (Data × List Char) :=
  let word := String.ofList (r.take 4)
  if word = "true" then .ok (.bool true, r.drop 4)
  else if word = "null" then .ok (.null, r.drop 4)
  else if word = "fals" ∧ (r.drop 4).head? = some 'e' then .ok (.bool false, r.drop 5)
  else
    let error :=
      match r.head? with
      | some 'n' => "'null' expected"
      | some 't' => "'true' expected"
      | some 'f' => "'false' expected"
      | _ => malformed
    .error { error, offset := offset len r + (if word = "fals" then 3 else 0) - 1 }

/-- The check of `number` for a leading zero; it lets `08` and `09` pass, and any digits after a
minus sign. -/
def leadingZero (r : List Char) : Except Failure PUnit :=
  match r with
  | '0' :: c :: _ =>
    if c = 'x' ∨ c = 'X' ∨ ('0' ≤ c ∧ c ≤ '7') then
      .error { error := "malformed number (leading zero must not be followed by another digit)",
               offset := offset len r }
    else .ok ⟨⟩
  | _ => .ok ⟨⟩

/-- Digits that must be there; `error` names what they are missing after. -/
def digits (error : String) (n r : List Char) : Except Failure (List Char × List Char) :=
  if r.head?.any perl.digit then .ok (n ++ r.takeWhile perl.digit, r.dropWhile perl.digit)
  else .error { error, offset := offset len r }

/-- The minus sign and the digits of the integer part. -/
def integer (r : List Char) : Except Failure (List Char × List Char) :=
  match r with
  | '-' :: r => digits perl len "malformed number (no digits after initial minus)" ['-'] r
  | r => .ok (r.takeWhile perl.digit, r.dropWhile perl.digit)

def fraction (n r : List Char) : Except Failure (List Char × List Char) :=
  match r with
  | '.' :: r => digits perl len "malformed number (no digits after decimal point)" (n ++ ['.']) r
  | r => .ok (n, r)

/-- The sign that an exponent may start with. -/
def expSign : List Char → List Char × List Char
  | '+' :: r => (['+'], r)
  | '-' :: r => (['-'], r)
  | r => ([], r)

def exponent (n r : List Char) : Except Failure (List Char × List Char) :=
  match r with
  | [] => .ok (n, [])
  | e :: r =>
    if e = 'e' ∨ e = 'E' then
      let (sign, r) := expSign r
      digits perl len "malformed number (no digits after exp sign)" (n ++ e :: sign) r
    else .ok (n, e :: r)

/-- What `number` returns for `$v`: a long integer stays a string. -/
def numeric (v : List Char) : Data :=
  if ¬ v.any (fun c => c = '.' ∨ c = 'e' ∨ c = 'E') ∧ perl.maxIntsize < v.length then
    .string (String.ofList v)
  else .number (perl.numify (String.ofList v))

/-- `number` -/
def number (r : List Char) : Except Failure (Data × List Char) := do
  leadingZero len r
  let (n, r) ← integer perl len r
  let (n, r) ← fraction perl len n r
  let (n, r) ← exponent perl len n r
  return (numeric perl n, r)

/-- `$o->{$k} = $v` -/
def setEntry (o : List (String × Data)) (k : String) (v : Data) : List (String × Data) :=
  if k ∈ o.map Prod.fst then o.map fun entry => if entry.1 = k then (k, v) else entry
  else o ++ [(k, v)]

variable (value : List Char → Except Failure (Data × List Char))

/-- `push @$a, value()` -/
def element (a : List Data) (r : List Char) : Except Failure (List Data × List Char) := do
  let (v, r) ← value r
  return (a ++ [v], r)

/-- `array` -/
def array (r : List Char) : Except Failure (Data × List Char) := do
  let (a, r) ← Reader.bracketed (white coder len) (element value) ']' ',' coder.relaxed
    (fun r => { error := ", or ] expected while parsing array", offset := offset len r }) [] r.tail
  return (.array a, r)

/-- A key, a colon and a value. -/
def member (o : List (String × Data)) (r : List Char) :
    Except Failure (List (String × Data) × List Char) := do
  let (k, r) ← string coder len r
  match ← white coder len r with
  | ':' :: r =>
    let (v, r) ← value r
    return (setEntry o k v, r)
  | r => .error { error := "':' expected", offset := offset len r - 1 }

/-- `object` -/
def object (r : List Char) : Except Failure (Data × List Char) := do
  let (o, r) ← Reader.bracketed (white coder len) (member coder len value) '\x7d' ',' coder.relaxed
    (fun r => { error := ", or \x7d expected while parsing object/hash",
                offset := offset len r - 1 }) [] r.tail
  return (.hash o, r)

/-- The check of `$max_depth` in `array` and `object`. -/
def tooDeep (r : List Char) : Except Failure (Data × List Char) :=
  .error { error := nestingLevel, offset := offset len r }

/-- The body of `value`. -/
def valueWith (array object : List Char → Except Failure (Data × List Char)) (r : List Char) :
    Except Failure (Data × List Char) := do
  match ← white coder len r with
  | [] => return (.null, [])
  | ch :: r =>
    if ch = '\x7b' then object (ch :: r)
    else if ch = '[' then array (ch :: r)
    else if isQuote coder ch then do
      let (s, r) ← string coder len (ch :: r)
      return (.string s, r)
    else if ch.isDigit ∨ ch = '-' then number perl len (ch :: r)
    else word len (ch :: r)

end Decode

/-- `value`, while `left` more levels are allowed. -/
def value (perl : Interpreter) (coder : Coder) (len : ℕ) :
    ℕ → List Char → Except Failure (Data × List Char)
  | 0, r => valueWith perl coder len (tooDeep len) (tooDeep len) r
  | left + 1, r =>
    valueWith perl coder len (array coder len (value perl coder len left))
      (object coder len (value perl coder len left)) r

/-- What `PP_decode_json` requires after the value. -/
def garbage (coder : Coder) (len : ℕ) (result : Data) (r : List Char) : Except Failure Data := do
  match ← white coder len r with
  | [] => return result
  -- the string `0` is false in `if ( $ch )`
  | '0' :: _ => return result
  | r => .error { error := "garbage after JSON object", offset := offset len r }

/-- `PP_decode_json`, up to the text of its error. -/
def ppDecodeJson (perl : Interpreter) (coder : Coder) (text : List Char) : Except Failure Data := do
  let len := text.length
  let r ← white coder len text
  let (result, rest) ← value perl coder len coder.maxDepth r
  if r = [] then .error { error := malformed, offset := len }
  else if ¬ coder.allowNonref ∧ ¬ result.isRef then
    .error { error := "JSON text must be an object or array (but found number, string, true, " ++
               "false or null, use allow_nonref to allow this)",
             offset := offset len rest, noRep := true }
  else garbage coder len result rest

/-- `decode` -/
def decode (perl : Interpreter) (coder : Coder) (text : String) : Except String Data :=
  (ppDecodeJson perl coder text.toList).mapError (decodeError text.toList)

/-! ## Scalars -/

section Scalars

variable (perl : Interpreter)

mutual

/-- The scalar that `decode` returns. -/
def toValue : Data → Value
  | .null => .undef
  | .bool b => .bool b
  | .number text => .text text
  | .string s => .text s
  | .array items => .array (perl.address (.array items)) (toItems items)
  | .hash entries => .hash (perl.address (.hash entries)) (toEntries entries)

def toItems : List Data → List Value
  | [] => []
  | d :: items => toValue d :: toItems items

def toEntries : List (String × Data) → List (String × Value)
  | [] => []
  | (k, v) :: entries => (k, toValue v) :: toEntries entries

end

end Scalars

/-! ## Encoding -/

section Encode

variable (perl : Interpreter) (coder : Coder)

/-- `s/([\x22\x5c\n\r\t\f\b])/$esc{$1}/g`, on one character. -/
def escapeQuoted : Char → List Char
  | '"' => ['\\', '"']
  | '\\' => ['\\', '\\']
  | '\n' => ['\\', 'n']
  | '\r' => ['\\', 'r']
  | '\t' => ['\\', 't']
  | '\x0c' => ['\\', 'f']
  | '\x08' => ['\\', 'b']
  | c => [c]

def escapeSlash (c : Char) : List Char := if c = '/' then ['\\', '/'] else [c]

/-- The four lower-case hexadecimal digits of `sprintf('%04x', $n)`. -/
def hex4 (n : ℕ) : List Char :=
  [Nat.digitChar (n / 4096 % 16), Nat.digitChar (n / 256 % 16), Nat.digitChar (n / 16 % 16),
    Nat.digitChar (n % 16)]

/-- `s/([\x00-\x08\x0b\x0e-\x1f])/'\\u00' . unpack('H2', $1)/eg`, on one character. -/
def escapeControl (c : Char) : List Char :=
  if c.toNat ≤ 0x08 ∨ c.toNat = 0x0b ∨ (0x0e ≤ c.toNat ∧ c.toNat ≤ 0x1f) then
    '\\' :: 'u' :: hex4 c.toNat
  else [c]

/-- `_encode_surrogates` -/
def encodeSurrogates (n : ℕ) : ℕ × ℕ :=
  ((n - 0x10000) / 0x400 + 0xD800, (n - 0x10000) % 0x400 + 0xDC00)

/-- What `_encode_ascii` and `_encode_latin1` make of one character, above their `limit`. -/
def escapeAbove (limit : ℕ) (c : Char) : List Char :=
  if c.toNat ≤ limit then [c]
  else if c.toNat ≤ 65535 then '\\' :: 'u' :: hex4 c.toNat
  else '\\' :: 'u' :: hex4 (encodeSurrogates c.toNat).1 ++
    '\\' :: 'u' :: hex4 (encodeSurrogates c.toNat).2

/-- `_encode_ascii` -/
def encodeAscii (arg : List Char) : List Char := arg.flatMap (escapeAbove 127)

/-- `_encode_latin1` -/
def encodeLatin1 (arg : List Char) : List Char := arg.flatMap (escapeAbove 255)

/-- The last two substitutions of `string_to_json`. -/
def escapeWide (arg : List Char) : List Char :=
  let arg := if coder.ascii then encodeAscii arg else arg
  if coder.latin1 then encodeLatin1 arg else arg

/-- The substitutions of `string_to_json`. -/
def escapeText (arg : List Char) : List Char :=
  let arg := arg.flatMap escapeQuoted
  let arg := if coder.escapeSlash then arg.flatMap escapeSlash else arg
  escapeWide coder (arg.flatMap escapeControl)

/-- `string_to_json` -/
def stringToJson (arg : String) : List Char := '"' :: (escapeText coder arg.toList ++ ['"'])

/-- `value_to_json`, of what is no container. -/
def valueToJson : Data → List Char
  | .null => "null".toList
  | .bool b => if b then "true".toList else "false".toList
  | .number text => text.toList
  | .string s => stringToJson coder s
  | .array _ => []
  | .hash _ => []

/-- `_sort` -/
def sort (entries : List (String × Data)) : List (String × Data) :=
  if coder.canonical then (perl.keys entries).insertionSort fun a b => a.1 ≤ b.1
  else perl.keys entries

/-- `_up_indent`: `$pre`, `$post` and the next `$indent_count`. -/
def upIndent (count : ℕ) : List Char × List Char × ℕ :=
  if coder.indent then
    ('\n' :: List.replicate (coder.indentLength * (count + 1)) ' ',
      '\n' :: List.replicate (coder.indentLength * count) ' ', count + 1)
  else ([], [], count)

/-- The return value of `array_to_json` and `hash_to_json`. -/
def brackets (opening closing : Char) (pre post : List Char) (res : List (List Char)) : List Char :=
  opening ::
    (if res = [] then [] else pre ++ (List.intercalate (',' :: pre) res ++ post)) ++ [closing]

/-- `$del` -/
def del : List Char :=
  (if coder.spaceBefore then [' '] else []) ++ ':' :: if coder.spaceAfter then [' '] else []

/-- `object_to_json`, while `left` more levels are allowed. -/
def objectToJson : ℕ → ℕ → Data → Except String (List Char)
  | 0, _, .array _ => .error nestingLevel
  | 0, _, .hash _ => .error nestingLevel
  | left + 1, count, .array items => do
    let (pre, post, count) := upIndent coder count
    let res ← items.mapM (objectToJson left count)
    return brackets '[' ']' pre post res
  | left + 1, count, .hash entries => do
    let (pre, post, count) := upIndent coder count
    let res ← (sort perl coder entries).mapM fun (k, v) => do
      let v ← objectToJson left count v
      return stringToJson coder k ++ del coder ++ v
    return brackets '\x7b' '\x7d' pre post res
  -- a text that is false in `||` is `0`, and is encoded alike once more
  | _, _, obj => .ok (valueToJson coder obj)

/-- `PP_encode_json` -/
def ppEncodeJson (obj : Data) : Except String (List Char) := do
  if ¬ obj.isRef ∧ ¬ coder.allowNonref then
    .error "hash- or arrayref expected (not a simple scalar, use allow_nonref to allow this)"
  else
    let str ← objectToJson perl coder coder.maxDepth 0 obj
    return str ++ if coder.indent then ['\n'] else []

/-- `encode` -/
def encode (obj : Data) : Except String String :=
  (ppEncodeJson perl coder obj).map String.ofList

end Encode

end RegNewvm.JsonPP
