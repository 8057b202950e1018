/-
  GlslMinifier.Spacing — white space between tokens.

  A gap (blanks or line breaks) is dropped where one of its neighbours is tight
  punctuation and the two would not fuse; any other gap becomes one space.
-/
import GlslMinifier.Token.Lexer

namespace GlslMinifier

/-- Punctuation that needs no white space around it. -/
def tightPunctuation : List Char := [';', ',', '+', '-', '*', '/', '(', ')', '{', '}', '=']

def Token.isTight (t : Token) : Bool :=
  t.kind == .punctuation && t.first?.any tightPunctuation.contains

/-- Whether another token would begin where `left` and `right` meet if nothing stood
    between them: `++`, `--`, `//` or `/*`. -/
def Token.fuses (left right : Token) : Bool :=
  match left.last?, right.first? with
  | some '+', some '+' => true
  | some '-', some '-' => true
  | some '/', some '/' => true
  | some '/', some '*' => true
  | _, _ => false

/-- What is left of a gap between two tokens.  A gap at an end of the text vanishes. -/
def gapBetween (left? right? : Option Token) : String :=
  match left?, right? with
  | some left, some right =>
    if (left.isTight || right.isTight) && !left.fuses right then "" else " "
  | _, _ => ""

/-- The text of each token in a narrowed text, `left?` being the token before them. -/
def narrow (left? : Option Token) : List Token → List String
  | [] => []
  | t :: ts => (if t.isGap then gapBetween left? ts.head? else t.text) :: narrow (some t) ts

/-- Drops or narrows every gap of a text. -/
def collapseSpaces (text : String) : String := String.join (narrow none (tokenize text))

end GlslMinifier
