/-
  GlslMinifier.Token.Lexer — cutting shader text into tokens.

  The kind of a token is fixed by its first character, by the one after it and by whether
  only blanks and comments stand before it on its line (`Kind.starting`); its text is then
  the longest that the kind allows (`Kind.extent`).  `tokenize` repeats this to the end
  of the text.  Main statement: `spell_tokenize`, tokens spell the text they were cut from.
-/
import GlslMinifier.Token.Basic
import GlslMinifier.Text.Comment
import GlslMinifier.Text.Run

namespace GlslMinifier

/-! ## §1. Character classes. -/

/-- Blanks inside a line. -/
def isBlank (c : Char) : Bool :=
  c == ' ' || c == '\t' || c == '\r' || c == '\x0b' || c == '\x0c'

/-- Characters an identifier may begin with. -/
def isWordStart (c : Char) : Bool := c.isAlpha || c == '_'

/-- Characters an identifier may go on with. -/
def isWordChar (c : Char) : Bool := c.isAlphanum || c == '_'

/-- Characters a number may go on with after any other. -/
def isNumberChar (c : Char) : Bool := c.isAlphanum || c == '_' || c == '.'

/-- Whether a sign directly after `c` belongs to a decimal number. -/
def isExponentMark (c : Char) : Bool := c == 'e' || c == 'E'

def isSign (c : Char) : Bool := c == '+' || c == '-'

/-! ## §2. The kind of the token ahead. -/

/-- The kind of the token that begins with `c`, where `next?` is the character after `c`
    and `lineStart` says that only blanks and comments precede it on its line. -/
def Kind.starting (lineStart : Bool) (c : Char) (next? : Option Char) : Kind :=
  if c == '\n' then .newline
  else if isBlank c then .whitespace
  else if c == '#' && lineStart then .directive
  else if c == '/' && (next? == some '/' || next? == some '*') then .comment
  else if isWordStart c then .identifier
  else if c.isDigit || (c == '.' && next?.any Char.isDigit) then .number
  else .punctuation

/-- Whether a `#` after a token of this kind would open a directive. -/
def Kind.keepsLineStart (lineStart : Bool) : Kind → Bool
  | .newline => true
  | .whitespace | .comment => lineStart
  | _ => false

/-! ## §3. How far a token reaches. -/

/-- The part of `cs` that continues a number whose last character so far is `prev`, and
    the rest.  A sign continues a number that is not hexadecimal directly after an
    exponent mark. -/
def splitNumber (hex : Bool) (prev : Char) : List Char → List Char × List Char
  | [] => ([], [])
  | c :: cs =>
    if isNumberChar c || (!hex && isSign c && isExponentMark prev) then
      let tail := splitNumber hex c cs
      (c :: tail.1, tail.2)
    else ([], c :: cs)

/-- Whether a number that begins with `c` and goes on with `cs` is hexadecimal. -/
def isHex (c : Char) (cs : List Char) : Bool :=
  c == '0' && (cs.head? == some 'x' || cs.head? == some 'X')

/-- Splits `cs` where a comment ends whose first character stands before `cs`: a line
    comment at the line break, a block comment after its closing mark, or at the end of
    the text when it has none. -/
def splitComment : List Char → List Char × List Char
  | '*' :: cs =>
    match splitClose? cs with
    | some (body, rest) => ('*' :: body, rest)
    | none => ('*' :: cs, [])
  | cs => splitRun (· != '\n') cs

/-- What follows the first character `c` of a token of this kind, split into the rest of
    the token and the text after it. -/
def Kind.extent (kind : Kind) (c : Char) (cs : List Char) : List Char × List Char :=
  match kind with
  | .newline | .punctuation => ([], cs)
  | .whitespace => splitRun isBlank cs
  | .identifier => splitRun isWordChar cs
  | .number => splitNumber (isHex c cs) c cs
  | .directive => splitRun (· != '\n') cs
  | .comment => splitComment cs

theorem splitNumber_append (hex : Bool) (prev : Char) (cs : List Char) :
    (splitNumber hex prev cs).1 ++ (splitNumber hex prev cs).2 = cs := by
  fun_induction splitNumber hex prev cs with
  | case1 => rfl
  | case2 prev c cs _ tail ih => simp only [List.cons_append, tail, ih]
  | case3 => rfl

theorem splitComment_append (cs : List Char) :
    (splitComment cs).1 ++ (splitComment cs).2 = cs := by
  fun_cases splitComment cs with
  | case1 cs body rest h => simp [splitClose?_append h]
  | case2 cs h => simp
  | case3 cs h => exact splitRun_append _ cs

/-- Nothing is lost between a token and the text after it. -/
theorem Kind.extent_append (kind : Kind) (c : Char) (cs : List Char) :
    (kind.extent c cs).1 ++ (kind.extent c cs).2 = cs := by
  cases kind <;> simp [Kind.extent, splitRun_append, splitNumber_append, splitComment_append]

theorem Kind.extent_length_le (kind : Kind) (c : Char) (cs : List Char) :
    (kind.extent c cs).2.length ≤ cs.length := by
  have h := congrArg List.length (kind.extent_append c cs)
  rw [List.length_append] at h
  omega

/-! ## §4. The lexer. -/

/-- Tokens of a text, where `lineStart` says whether a `#` would open a directive. -/
def scan (lineStart : Bool) : List Char → List Token
  | [] => []
  | c :: cs =>
    let kind := Kind.starting lineStart c cs.head?
    let ahead := kind.extent c cs
    ⟨kind, String.ofList (c :: ahead.1)⟩ :: scan (kind.keepsLineStart lineStart) ahead.2
termination_by cs => cs.length
decreasing_by
  have := (Kind.starting lineStart c cs.head?).extent_length_le c cs
  simp only [List.length_cons]
  omega

/-- Tokens of a whole text. -/
def tokenize (text : String) : List Token := scan true text.toList

theorem toList_spell_scan (lineStart : Bool) (cs : List Char) :
    (Token.spell (scan lineStart cs)).toList = cs := by
  fun_induction scan lineStart cs with
  | case1 => rfl
  | case2 lineStart c cs kind ahead ih =>
    simp only [Token.spell_cons, String.toList_append, ih, String.toList_ofList,
      List.cons_append, List.cons.injEq, true_and]
    exact kind.extent_append c cs

/-- Tokens spell the text they were cut from. -/
theorem spell_tokenize (text : String) : Token.spell (tokenize text) = text :=
  String.toList_injective (toList_spell_scan true text.toList)

end GlslMinifier
