/-
  GlslMinifier.Declaration — names that declarations introduce.

  Each function here reads tokens that carry meaning and finds the names of one kind of
  declaration.  None of them parses: a pattern of a few neighbouring tokens is enough to
  find a declaration, and brackets are counted only to find its end, so any text,
  balanced or not, has an answer.
-/
import GlslMinifier.Token.Basic
import GlslMinifier.Vocabulary.Basic

namespace GlslMinifier

/-! ## §1. Marks. -/

def openBrace : String := "\x7b"

def closeBrace : String := "\x7d"

/-- Whether a declared name may stand before this token: `;`, `,` or `[`. -/
def Token.endsDeclarator (t : Token) : Bool :=
  t.isPunctuation ";" || t.isPunctuation "," || t.isPunctuation "["

/-! ## §2. Functions. -/

/-- Names in the pattern: word, name, `(`. -/
def functionNames : List Token → List String
  | type :: name :: paren :: rest =>
    let later := functionNames (name :: paren :: rest)
    if type.isIdentifier && name.isIdentifier && paren.isPunctuation "(" then
      name.text :: later
    else later
  | _ => []

/-! ## §3. Structures and interface blocks. -/

/-- A named body of member declarations. -/
structure Block where
  /-- `struct`, or the storage qualifier of an interface block. -/
  keyword : String
  name : String
  members : List String
  deriving DecidableEq, Repr

def Block.isStruct (b : Block) : Bool := b.keyword == "struct"

/-- Whether a block may follow this token. -/
def Token.opensBlock (t : Token) : Bool :=
  t.isIdentifier && (t.text == "struct" || blockQualifiers.contains t.text)

/-- Declared names that stand directly inside a body, up to its closing brace or the end
    of the text.  `depth` counts the braces opened inside the body. -/
def memberNames (depth : Nat) : List Token → List String
  | [] => []
  | t :: ts =>
    if t.isPunctuation openBrace then memberNames (depth + 1) ts
    else if t.isPunctuation closeBrace then
      match depth with
      | 0 => []
      | outer + 1 => memberNames outer ts
    else if depth == 0 && t.isIdentifier && ts.head?.any (·.endsDeclarator) then
      t.text :: memberNames depth ts
    else memberNames depth ts

/-- Blocks in the pattern: keyword, name, opening brace. -/
def blocks : List Token → List Block
  | keyword :: name :: brace :: rest =>
    let later := blocks (name :: brace :: rest)
    if keyword.opensBlock && name.isIdentifier && brace.isPunctuation openBrace then
      ⟨keyword.text, name.text, memberNames 0 rest⟩ :: later
    else later
  | _ => []

/-! ## §4. Layout lists. -/

/-- Identifiers up to the parenthesis that closes the list, or to the end of the text.
    `depth` counts the parentheses opened inside the list. -/
def listedNames (depth : Nat) : List Token → List String
  | [] => []
  | t :: ts =>
    if t.isPunctuation "(" then listedNames (depth + 1) ts
    else if t.isPunctuation ")" then
      match depth with
      | 0 => []
      | outer + 1 => listedNames outer ts
    else if t.isIdentifier then t.text :: listedNames depth ts
    else listedNames depth ts

/-- Identifiers inside `layout( … )`. -/
def layoutNames : List Token → List String
  | keyword :: paren :: rest =>
    let later := layoutNames (paren :: rest)
    if keyword.isWord "layout" && paren.isPunctuation "(" then
      listedNames 0 rest ++ later
    else later
  | _ => []

/-! ## §5. Global declarations with a storage qualifier. -/

/-- Where a scan for global declarations stands. -/
structure Scope where
  /-- Braces open so far; a closing brace without an opening one does not count. -/
  braces : Nat
  /-- Parentheses open so far, counted alike. -/
  parens : Nat
  /-- A storage qualifier stands before in the same statement. -/
  declaring : Bool
  deriving DecidableEq, Repr

namespace Scope

/-- The beginning of a text. -/
def top : Scope := ⟨0, 0, false⟩

/-- Outside all braces and parentheses. -/
def isGlobal (s : Scope) : Bool := s.braces == 0 && s.parens == 0

/-- Whether `t` is a qualifier here that makes its statement visible to the host. -/
def isQualifier (s : Scope) (t : Token) : Bool :=
  s.isGlobal && t.isIdentifier && interfaceQualifiers.contains t.text

/-- Whether `t` is declared visible to the host here, where `after` follows it. -/
def declares (s : Scope) (t : Token) (after : Option Token) : Bool :=
  s.isGlobal && s.declaring && t.isIdentifier && !s.isQualifier t
    && after.any (fun u => u.endsDeclarator || u.isPunctuation "=")

/-- The scope after `t`. -/
def step (s : Scope) (t : Token) : Scope :=
  if t.isPunctuation openBrace then ⟨s.braces + 1, s.parens, false⟩
  else if t.isPunctuation closeBrace then ⟨s.braces - 1, s.parens, false⟩
  else if t.isPunctuation "(" then { s with parens := s.parens + 1 }
  else if t.isPunctuation ")" then { s with parens := s.parens - 1 }
  else if t.isPunctuation ";" && s.isGlobal then { s with declaring := false }
  else if s.isQualifier t then { s with declaring := true }
  else s

end Scope

/-- Names declared visible to the host from scope `s` on. -/
def interfaceNames (s : Scope) : List Token → List String
  | [] => []
  | t :: ts =>
    let later := interfaceNames (s.step t) ts
    if s.declares t ts.head? then t.text :: later else later

end GlslMinifier
