/-
  GlslMinifier.Json.Grammar — JSON texts.

  A text is described by its pieces, with no word on how it is read: space may stand between
  any two of them, and a string can be spelled in many ways.

  A string of characters is told apart from a string that is only well formed (`paired`): in
  the first, a code unit of a pair does not stand alone.
-/

namespace GlslMinifier.Json

/-! ## §1. Space and lists. -/

/-- Space between the pieces of a JSON text. -/
def isSpace (c : Char) : Bool := c == ' ' || c == '\t' || c == '\n' || c == '\r'

def IsSpaces (cs : List Char) : Prop := ∀ c ∈ cs, isSpace c = true

/-- `t` is `text` with space around it. -/
inductive Padded (text : List Char) : (t : List Char) → Prop
  | spaces {before after : List Char} : IsSpaces before → IsSpaces after →
      Padded text (before ++ (text ++ after))

/-- `text` lists one or more things, each written in its own way, with commas between. -/
inductive Listed {α : Type} (writes : α → List Char → Prop) : List α → (text : List Char) → Prop
  | last {x : α} {t : List Char} : writes x t → Listed writes [x] t
  | cons {x : α} {xs : List α} {t text : List Char} : writes x t → Listed writes xs text →
      Listed writes (x :: xs) (t ++ ',' :: text)

/-- `text` stands between brackets and lists any number of things. -/
inductive Items {α : Type} (writes : α → List Char → Prop) : List α → (text : List Char) → Prop
  | none {spaces : List Char} : IsSpaces spaces → Items writes [] spaces
  | some {xs : List α} {text : List Char} : Listed writes xs text → Items writes xs text

/-! ## §2. Strings. -/

/-- The two-character escapes: the character after the backslash and what it stands for. -/
def shortEscapes : List (Char × Char) :=
  [('"', '"'), ('\\', '\\'), ('/', '/'), ('b', '\x08'), ('f', '\x0c'), ('n', '\n'),
    ('r', '\r'), ('t', '\t')]

/-- Value of a hexadecimal digit in either case. -/
def hexValue? (c : Char) : Option Nat :=
  if c.isDigit then some (c.toNat - 48)
  else if 'a' ≤ c ∧ c ≤ 'f' then some (c.toNat - 87)
  else if 'A' ≤ c ∧ c ≤ 'F' then some (c.toNat - 55)
  else none

/-- A code unit that begins a pair. -/
def isLeading (unit : Nat) : Bool := 0xD800 ≤ unit && unit ≤ 0xDBFF

/-- A code unit that ends a pair. -/
def isTrailing (unit : Nat) : Bool := 0xDC00 ≤ unit && unit ≤ 0xDFFF

/-- The character that a pair of code units stands for. -/
def ofPair (leading trailing : Nat) : Char :=
  Char.ofNat (0x10000 + (leading - 0xD800) * 0x400 + (trailing - 0xDC00))

/-- Four hexadecimal digits that spell a code unit. -/
inductive HexUnit : Nat → List Char → Prop
  | digits {a b c d : Char} {va vb vc vd : Nat} : hexValue? a = some va →
      hexValue? b = some vb → hexValue? c = some vc → hexValue? d = some vd →
      HexUnit (((va * 16 + vb) * 16 + vc) * 16 + vd) [a, b, c, d]

/-- `text` spells the characters `s` inside quotes.  If `paired` is false, a code unit
    need not be a character, and it does not matter what it stands for. -/
inductive Spelling (paired : Bool) : (s text : List Char) → Prop
  | nil : Spelling paired [] []
  | plain {c : Char} {s text : List Char} : c ≠ '"' → c ≠ '\\' → 0x20 ≤ c.toNat →
      Spelling paired s text → Spelling paired (c :: s) (c :: text)
  | short {mark c : Char} {s text : List Char} : (mark, c) ∈ shortEscapes →
      Spelling paired s text → Spelling paired (c :: s) ('\\' :: mark :: text)
  | unit {n : Nat} {digits s text : List Char} : HexUnit n digits →
      (paired = true → isLeading n = false ∧ isTrailing n = false) →
      Spelling paired s text →
      Spelling paired (Char.ofNat n :: s) ('\\' :: 'u' :: (digits ++ text))
  | pair {m n : Nat} {leading trailing s text : List Char} : paired = true →
      HexUnit m leading → isLeading m = true → HexUnit n trailing → isTrailing n = true →
      Spelling paired s text →
      Spelling paired (ofPair m n :: s)
        ('\\' :: 'u' :: (leading ++ '\\' :: 'u' :: (trailing ++ text)))

/-- A string in quotes. -/
inductive IsString (paired : Bool) (s : List Char) : List Char → Prop
  | quoted {text : List Char} : Spelling paired s text → IsString paired s ('"' :: (text ++ ['"']))

/-! ## §3. Numbers. -/

structure IsDigits (ds : List Char) : Prop where
  nonempty : ds ≠ []
  digit : ∀ d ∈ ds, d.isDigit = true

/-- Digits without a leading zero, or a zero. -/
structure IsWhole (ds : List Char) : Prop extends IsDigits ds where
  noLeadingZero : ds.head? = some '0' → ds = ['0']

inductive IsFraction : List Char → Prop
  | none : IsFraction []
  | point {ds : List Char} : IsDigits ds → IsFraction ('.' :: ds)

inductive IsExponent : List Char → Prop
  | none : IsExponent []
  | mark {mark : Char} {sign ds : List Char} : mark = 'e' ∨ mark = 'E' →
      sign = [] ∨ sign = ['+'] ∨ sign = ['-'] → IsDigits ds → IsExponent (mark :: (sign ++ ds))

/-- A number without its sign. -/
inductive SpellsNumeral : List Char → Prop
  | parts {whole fraction exponent : List Char} : IsWhole whole → IsFraction fraction →
      IsExponent exponent → SpellsNumeral (whole ++ (fraction ++ exponent))

/-! ## §4. Values. -/

/-- A key and the text of its value. -/
structure Member where
  key : String
  value : List Char
  deriving DecidableEq, Repr

/-- `t` is a member of an object, with any space between its pieces. -/
inductive WritesMember (paired : Bool) (m : Member) : (t : List Char) → Prop
  | pieces {before key after value : List Char} : IsSpaces before →
      IsString paired m.key.toList key → IsSpaces after → Padded m.value value →
      WritesMember paired m (before ++ (key ++ (after ++ ':' :: value)))

def literals : List (List Char) := [['n', 'u', 'l', 'l'], ['t', 'r', 'u', 'e'],
  ['f', 'a', 'l', 's', 'e']]

inductive IsScalar : List Char → Prop
  | literal {v : List Char} : v ∈ literals → IsScalar v
  | string {s v : List Char} : IsString false s v → IsScalar v
  | positive {v : List Char} : SpellsNumeral v → IsScalar v
  | negative {v : List Char} : SpellsNumeral v → IsScalar ('-' :: v)

/-- A JSON value without space around it, nested to any depth. -/
inductive IsValue : List Char → Prop
  | scalar {v : List Char} : IsScalar v → IsValue v
  | array {values : List (List Char)} {text : List Char} : Items Padded values text →
      (∀ v ∈ values, IsValue v) → IsValue ('[' :: (text ++ [']']))
  | object {members : List Member} {text : List Char} : Items (WritesMember false) members text →
      (∀ m ∈ members, IsValue m.value) → IsValue ('\x7b' :: (text ++ ['\x7d']))

/-- The text of an object with these members, with any space around its pieces.  Its keys are
    strings of characters, so the code units in them pair. -/
inductive IsObject (ms : List Member) : (text : List Char) → Prop
  | braces {before inside after : List Char} : IsSpaces before →
      Items (WritesMember true) ms inside → IsSpaces after →
      IsObject ms (before ++ '\x7b' :: (inside ++ '\x7d' :: after))

end GlslMinifier.Json
