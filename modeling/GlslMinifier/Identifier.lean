/-
  GlslMinifier.Identifier — the shape of names.
-/
import GlslMinifier.Token.Lexer

namespace GlslMinifier

/-- A name that the lexer reads as one identifier. -/
def isIdentifier (name : String) : Bool :=
  match name.toList with
  | [] => false
  | c :: cs => isWordStart c && cs.all isWordChar

/-! ## Naming conventions.

Shaders name what the host looks up by name in two recognisable ways. -/

/-- One lower-case letter directly followed by an upper-case one, as in `uTime`. -/
def isPrefixedCamel (name : String) : Bool :=
  match name.toList with
  | c :: d :: _ => c.isLower && d.isUpper
  | _ => false

/-- Some upper-case letter and no lower-case one, as in `NUM_LIGHTS`. -/
def isConstantLike (name : String) : Bool :=
  name.toList.any Char.isUpper && !name.toList.any Char.isLower

end GlslMinifier
