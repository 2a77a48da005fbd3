import RegNewvm.Model.Json

/-!
# The texts that stand for data

A grammar of the documents that `decode` is for, with the data that each text stands for: blanks
and comments, strings, numerals, and containers of at most a given number of levels.  It says
nothing of a cursor or of the order in which a text is read.
-/

namespace RegNewvm.JsonPP

/-! ## Blanks -/

/-- Blanks and comments. -/
inductive Blank (relaxed : Bool) : List Char → Prop
  | nil : Blank relaxed []
  | space {c : Char} {w : List Char} (hc : c ≤ ' ') (hw : Blank relaxed w) : Blank relaxed (c :: w)
  | line {b w : List Char} {c : Char} (hb : '\n' ∉ b ∧ '\r' ∉ b) (hc : c = '\n' ∨ c = '\r')
      (hw : Blank relaxed w) : Blank relaxed ('/' :: '/' :: (b ++ c :: w))
  | block {b w : List Char} (hb : ¬ ['*', '/'] <:+: b) (hw : Blank relaxed w) :
      Blank relaxed ('/' :: '*' :: (b ++ '*' :: '/' :: w))
  | hash {b w : List Char} (hrelaxed : relaxed) (hb : '\n' ∉ b) (hw : Blank relaxed w) :
      Blank relaxed ('#' :: (b ++ '\n' :: w))

/-- Blanks up to the end of the text; the last comment may lack its end of line. -/
inductive LastBlank (relaxed : Bool) : List Char → Prop
  | blank {w : List Char} (hw : Blank relaxed w) : LastBlank relaxed w
  | line {w b : List Char} (hw : Blank relaxed w) (hb : '\n' ∉ b ∧ '\r' ∉ b) :
      LastBlank relaxed (w ++ '/' :: '/' :: b)
  | hash {w b : List Char} (hw : Blank relaxed w) (hrelaxed : relaxed) (hb : '\n' ∉ b) :
      LastBlank relaxed (w ++ '#' :: b)

/-- A text that does not start with a blank. -/
def NoBlank (relaxed : Bool) (r : List Char) : Prop :=
  ∀ c ∈ r.head?, ' ' < c ∧ c ≠ '/' ∧ ¬ (relaxed ∧ c = '#')

/-! ## Strings -/

/-- A text between two `bound`s and the characters it stands for, after a high surrogate that waits
for its low one.  Other characters may stand between the two, and a second high surrogate takes the
place of the first. -/
inductive StringText (bound : Char) : Option ℕ → List Char → List Char → Prop
  | nil : StringText bound none [] []
  | char {waiting : Option ℕ} {c : Char} {t s : List Char} (hbound : c ≠ bound) (hescape : c ≠ '\\')
      (hcontrol : ¬ c < ' ') (hquote : c ≠ '"') (ht : StringText bound waiting t s) :
      StringText bound waiting (c :: t) (c :: s)
  | escape {waiting : Option ℕ} {e c : Char} {t s : List Char} (he : escapes e = some c)
      (ht : StringText bound waiting t s) : StringText bound waiting ('\\' :: e :: t) (c :: s)
  | high {waiting : Option ℕ} {a b c d : Char} {t s : List Char}
      (hhex : [a, b, c, d].all isHex) (hlow : 0xD800 ≤ hex [a, b, c, d])
      (hhigh : hex [a, b, c, d] ≤ 0xDBFF) (ht : StringText bound (some (hex [a, b, c, d])) t s) :
      StringText bound waiting ('\\' :: 'u' :: a :: b :: c :: d :: t) s
  | low {high : ℕ} {a b c d : Char} {t s : List Char}
      (hhex : [a, b, c, d].all isHex) (hlow : 0xDC00 ≤ hex [a, b, c, d])
      (hhigh : hex [a, b, c, d] ≤ 0xDFFF) (ht : StringText bound none t s) :
      StringText bound (some high) ('\\' :: 'u' :: a :: b :: c :: d :: t)
        (decodeSurrogates high (hex [a, b, c, d]) :: s)
  | unicode {a b c d : Char} {t s : List Char} (hhex : [a, b, c, d].all isHex)
      (hu : hex [a, b, c, d] < 0xD800 ∨ 0xDFFF < hex [a, b, c, d])
      (ht : StringText bound none t s) :
      StringText bound none ('\\' :: 'u' :: a :: b :: c :: d :: t)
        (Char.ofNat (hex [a, b, c, d]) :: s)

/-- A string with its quotes. -/
def Quoted (coder : Coder) (t : List Char) (s : String) : Prop :=
  ∃ q b, t = q :: (b ++ [q]) ∧ isQuote coder q ∧ StringText q none b s.toList

/-! ## Numerals -/

section Numerals

variable (perl : Interpreter)

/-- One digit or more. -/
def Digits (ds : List Char) : Prop := ds ≠ [] ∧ ∀ c ∈ ds, perl.digit c

/-- Without a minus sign the first digit is one of `0` to `9`, and after a zero the next digit is
none of `0` to `7`. -/
inductive IntegerText : List Char → Prop
  | minus {ds : List Char} (hds : Digits perl ds) : IntegerText ('-' :: ds)
  | plain {c : Char} {ds : List Char} (hc : c.isDigit) (hds : ∀ d ∈ ds, perl.digit d)
      (hzero : c = '0' → ∀ d ∈ ds.head?, ¬ ('0' ≤ d ∧ d ≤ '7')) : IntegerText (c :: ds)

inductive FractionText : List Char → Prop
  | nil : FractionText []
  | point {ds : List Char} (hds : Digits perl ds) : FractionText ('.' :: ds)

inductive ExponentText : List Char → Prop
  | nil : ExponentText []
  | exp {e : Char} {sign ds : List Char} (he : e = 'e' ∨ e = 'E')
      (hsign : sign = [] ∨ sign = ['+'] ∨ sign = ['-']) (hds : Digits perl ds) :
      ExponentText (e :: (sign ++ ds))

def Numeral (t : List Char) : Prop :=
  ∃ i f x, t = i ++ (f ++ x) ∧ IntegerText perl i ∧ FractionText perl f ∧ ExponentText perl x

/-- The first character is one a numeral may start with. -/
def NumeralStart (t : List Char) : Prop := ∃ c ∈ t.head?, c.isDigit ∨ c = '-'

/-- What may follow a numeral. -/
def NumeralEnd (r : List Char) : Prop :=
  ∀ c ∈ r.head?, perl.digit c = false ∧ c ≠ '.' ∧ c ≠ 'e' ∧ c ≠ 'E' ∧ c ≠ 'x' ∧ c ≠ 'X'

end Numerals

/-! ## Values -/

variable (perl : Interpreter) (coder : Coder)

/-- A value that is no container. -/
inductive Scalar : List Char → Data → Prop
  | null : Scalar "null".toList .null
  | true : Scalar "true".toList (.bool true)
  | false : Scalar "false".toList (.bool false)
  | numeral {t : List Char} (ht : Numeral perl t) : Scalar t (numeric perl t)
  | string {t : List Char} {s : String} (ht : Quoted coder t s) : Scalar t (.string s)

section Containers

variable (Value : List Char → Data → Prop)

/-- An element of an array, pushed onto those before it. -/
def Element (a : List Data) (t : List Char) (a' : List Data) : Prop :=
  ∃ v, Value t v ∧ a' = a ++ [v]

/-- A member of an object, stored over those before it. -/
def Member (o : List (String × Data)) (t : List Char) (o' : List (String × Data)) : Prop :=
  ∃ kt w w' vt k v, t = kt ++ (w ++ ':' :: (w' ++ vt)) ∧ Quoted coder kt k ∧
    Blank coder.relaxed w ∧ Blank coder.relaxed w' ∧ Value vt v ∧ o' = setEntry o k v

def ArrayText (t : List Char) (d : Data) : Prop :=
  ∃ u a, t = '[' :: u ∧ d = .array a ∧
    Reader.Bracketed (Blank coder.relaxed) (Element Value) ']' ',' coder.relaxed [] u a

def HashText (t : List Char) (d : Data) : Prop :=
  ∃ u o, t = '\x7b' :: u ∧ d = .hash o ∧
    Reader.Bracketed (Blank coder.relaxed) (Member coder Value) '\x7d' ',' coder.relaxed [] u o

end Containers

/-- A value of at most `n` levels of containers. -/
def Item : ℕ → List Char → Data → Prop
  | 0 => Scalar perl coder
  | n + 1 => fun t d =>
    Scalar perl coder t d ∨ ArrayText coder (Item n) t d ∨ HashText coder (Item n) t d

/-- What may follow the value of a document: blanks, or blanks and then anything from a `0` on. -/
def Rest (r : List Char) : Prop :=
  LastBlank coder.relaxed r ∨ ∃ w j, r = w ++ '0' :: j ∧ Blank coder.relaxed w

/-- A document. -/
def Document (text : List Char) (d : Data) : Prop :=
  ∃ w t r, text = w ++ (t ++ r) ∧ Blank coder.relaxed w ∧ Item perl coder coder.maxDepth t d ∧
    (coder.allowNonref ∨ d.isRef) ∧ Rest coder r ∧ (NumeralStart t → r.head? ≠ some '0')

/-! ## Data -/

/-- The keys of every hash are distinct, and every number is one of `Number`. -/
inductive WellFormed (Number : String → Prop) : Data → Prop
  | null : WellFormed Number .null
  | bool (b : Bool) : WellFormed Number (.bool b)
  | number {text : String} (ht : Number text) : WellFormed Number (.number text)
  | string (s : String) : WellFormed Number (.string s)
  | array {items : List Data} (hitems : ∀ d ∈ items, WellFormed Number d) :
      WellFormed Number (.array items)
  | hash {entries : List (String × Data)} (hkeys : (entries.map Prod.fst).Nodup)
      (hentries : ∀ entry ∈ entries, WellFormed Number entry.2) : WellFormed Number (.hash entries)

/-- The string of a number that was read. -/
def ReadNumber (text : String) : Prop :=
  ∃ t, Numeral perl t ∧ numeric perl t = .number text

/-- The string of a number that is read as the same number again. -/
def PrintedNumber (text : String) : Prop :=
  Numeral perl text.toList ∧ numeric perl text.toList = .number text

/-- At most `n` levels of containers. -/
inductive Within : ℕ → Data → Prop
  | scalar {n : ℕ} {d : Data} (harray : ∀ items, d ≠ .array items)
      (hhash : ∀ entries, d ≠ .hash entries) : Within n d
  | array {n : ℕ} {items : List Data} (hitems : ∀ d ∈ items, Within n d) :
      Within (n + 1) (.array items)
  | hash {n : ℕ} {entries : List (String × Data)} (hentries : ∀ entry ∈ entries, Within n entry.2) :
      Within (n + 1) (.hash entries)

/-- The same data, but for the order of the entries of a hash. -/
inductive Same : Data → Data → Prop
  | null : Same .null .null
  | bool (b : Bool) : Same (.bool b) (.bool b)
  | number (text : String) : Same (.number text) (.number text)
  | string (s : String) : Same (.string s) (.string s)
  | array {items items' : List Data} (h : List.Forall₂ Same items items') :
      Same (.array items) (.array items')
  | hash {entries ordered entries' : List (String × Data)} (hperm : ordered.Perm entries)
      (hkeys : ordered.map Prod.fst = entries'.map Prod.fst)
      (h : List.Forall₂ Same (ordered.map Prod.snd) (entries'.map Prod.snd)) :
      Same (.hash entries) (.hash entries')

end RegNewvm.JsonPP
