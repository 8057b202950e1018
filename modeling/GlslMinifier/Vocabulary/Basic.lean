/-
  GlslMinifier.Vocabulary.Basic — names with a meaning fixed by the language.
-/
import GlslMinifier.Vocabulary.Words

namespace GlslMinifier

/-! ## §1. Keywords. -/

/-- How names of built-in variables and functions begin. -/
def builtinMark : String := "gl_"

/-- Whether two underscores stand side by side. -/
def hasDoubleUnderscore : List Char → Bool
  | [] => false
  | '_' :: '_' :: _ => true
  | _ :: cs => hasDoubleUnderscore cs

/-- A name that the language reserves: a listed word, a name that begins like a built-in,
    or one with a double underscore. -/
def isKeyword (name : String) : Bool :=
  Vocabulary.reservedWords.contains name || builtinMark.toList.isPrefixOf name.toList
    || hasDoubleUnderscore name.toList

/-! ## §2. Qualifiers. -/

/-- Qualifiers that make a global declaration visible to the host program. -/
def interfaceQualifiers : List String :=
  ["uniform", "in", "out", "attribute", "varying", "buffer"]

/-- Qualifiers that may open a named block of declarations. -/
def blockQualifiers : List String := ["uniform", "buffer", "in", "out"]

end GlslMinifier
