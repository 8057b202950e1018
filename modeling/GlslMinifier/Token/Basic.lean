/-
  GlslMinifier.Token.Basic — tokens of shader text.

  A token is a kind and the text it covers.  A token list covers a text: spelling the
  tokens one after the other (`Token.spell`) gives the text back, so no position is
  stored; positions are recovered in `GlslMinifier.Token.Span`.
-/

namespace GlslMinifier

/-! ## §1. Kinds. -/

/-- What a token is.  Whatever no other kind covers is a one-character `punctuation`. -/
inductive Kind
  | identifier
  | number
  | punctuation
  /-- A run of blanks inside one line. -/
  | whitespace
  /-- One line break. -/
  | newline
  /-- A preprocessor line, from its `#` up to the line break. -/
  | directive
  /-- A line comment up to the line break, or a block comment. -/
  | comment
  deriving DecidableEq, Repr

/-- Kinds that carry no meaning for the language: blanks, line breaks and comments. -/
def Kind.isTrivia : Kind → Bool
  | .whitespace | .newline | .comment => true
  | _ => false

/-- Kinds that stand for white space: blanks and line breaks. -/
def Kind.isGap : Kind → Bool
  | .whitespace | .newline => true
  | _ => false

/-! ## §2. Tokens. -/

/-- A piece of text with its kind. -/
structure Token where
  kind : Kind
  text : String
  deriving DecidableEq, Repr

namespace Token

def isTrivia (t : Token) : Bool := t.kind.isTrivia

def isGap (t : Token) : Bool := t.kind.isGap

def isIdentifier (t : Token) : Bool := t.kind == .identifier

/-- The punctuation token spelled `text`. -/
def isPunctuation (t : Token) (text : String) : Bool :=
  t.kind == .punctuation && t.text == text

/-- The identifier token spelled `text`. -/
def isWord (t : Token) (text : String) : Bool :=
  t.kind == .identifier && t.text == text

/-- First character of the text. -/
def first? (t : Token) : Option Char := t.text.toList.head?

/-- Last character of the text. -/
def last? (t : Token) : Option Char := t.text.toList.getLast?

/-- The text that a token list covers. -/
def spell (ts : List Token) : String := String.join (ts.map (·.text))

/-- The tokens that carry meaning, in order. -/
def significant (ts : List Token) : List Token := ts.filter (!·.isTrivia)

theorem toList_spell (ts : List Token) :
    (spell ts).toList = ts.flatMap (·.text.toList) := by
  simp [spell, String.toList_join, List.flatMap_map]

@[simp] theorem spell_nil : spell [] = "" := rfl

@[simp] theorem spell_cons (t : Token) (ts : List Token) :
    spell (t :: ts) = t.text ++ spell ts := by
  apply String.toList_injective
  simp [toList_spell]

@[simp] theorem spell_append (ts us : List Token) :
    spell (ts ++ us) = spell ts ++ spell us := by
  apply String.toList_injective
  simp [toList_spell]

end Token

end GlslMinifier
