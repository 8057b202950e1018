/-
  GlslMinifier.IndexedSurvey — a survey by positions.

  The scans here hold the whole token list beside the positions of its tokens that carry
  meaning, and look every token up by its position.  Brackets are counted by numbers that
  do not go below zero.  Nothing says that a position is in range, that a part of a list or
  of a text is there, or that a count can be taken down: where it is not so, the scan fails
  (`none`).  That none ever does is the subject of `GlslMinifier.Proofs.IndexedSurvey`.
-/
import GlslMinifier.Survey
import GlslMinifier.Token.ByteScan

namespace GlslMinifier

/-! ## §1. Steps that may fail. -/

section

variable {α : Type}

/-- One less, where there is one. -/
def decrement? : Nat → Option Nat
  | 0 => none
  | n + 1 => some n

/-- A list from a position on; there is nothing behind the end. -/
def sliceFrom? (l : List α) (start : Nat) : Option (List α) :=
  if start ≤ l.length then some (l.drop start) else none

/-- A list up to a position. -/
def sliceTo? (l : List α) (stop : Nat) : Option (List α) :=
  if stop ≤ l.length then some (l.take stop) else none

/-- All runs of `size` neighbours. -/
def windows (size : Nat) (l : List α) : List (List α) :=
  (List.range (l.length + 1 - size)).map fun i => (l.drop i).take size

end

/-! ## §2. Tokens by position. -/

/-- Positions of the tokens that carry meaning, in order. -/
def significantPositions (ts : List Token) : List Nat :=
  (ts.zipIdx.filter fun x => !x.1.isTrivia).map (·.2)

/-- The next token with a meaning behind a position, if there is one. -/
def nextSignificant (ts : List Token) (position : Nat) : Option Token :=
  (sliceFrom? ts (position + 1)).bind (·.find? (!·.isTrivia))

/-- The last token with a meaning before a position, if there is one. -/
def prevSignificant? (ts : List Token) (position : Nat) : Option (Option Token) :=
  (sliceTo? ts position).map (·.reverse.find? (!·.isTrivia))

/-- The token that the `i`-th of the positions stands for. -/
def tokenAt? (ts : List Token) (positions : List Nat) (i : Nat) : Option Token :=
  positions[i]?.bind (ts[·]?)

/-! ## §3. Preprocessor lines. -/

/-- Identifiers of a preprocessor line behind its first byte. -/
def scanDirective? (t : Token) : Option (List String) := do
  let rest ← slice? t.text 1 t.text.utf8ByteSize
  let found ← (ByteScanner.atStart rest).collect?
  return ((found.map Prod.fst).filter (·.isIdentifier)).map (·.text)

def scanDirectives? (ts : List Token) : Option (List String) :=
  ((ts.filter (·.kind == .directive)).mapM scanDirective?).map List.flatten

/-! ## §4. Functions, blocks and layout lists. -/

/-- The function name in a run of three positions, if they are word, name, `(`. -/
def scanFunction? (ts : List Token) (window : List Nat) : Option (List String) := do
  let type ← tokenAt? ts window 0
  let name ← tokenAt? ts window 1
  let paren ← tokenAt? ts window 2
  return if type.isIdentifier && name.isIdentifier && paren.isPunctuation "(" then [name.text]
    else []

def scanFunctions? (ts : List Token) (positions : List Nat) : Option (List String) :=
  ((windows 3 positions).mapM (scanFunction? ts)).map List.flatten

/-- Spellings of the tokens that `picks` holds for, up to the closing mark that brings
    `depth` back to zero, or to the end of the text.  `picks` sees the depth, the token and
    the next one with a meaning. -/
def scanBracketed? (opening closing : String) (picks : Nat → Token → Option Token → Bool)
    (ts : List Token) (depth : Nat) : List Nat → Option (List String)
  | [] => some []
  | position :: positions => do
    let t ← ts[position]?
    if t.isPunctuation opening then
      scanBracketed? opening closing picks ts (depth + 1) positions
    else if t.isPunctuation closing then
      let outer ← decrement? depth
      if outer == 0 then return []
      else scanBracketed? opening closing picks ts outer positions
    else if picks depth t (nextSignificant ts position) then
      return t.text :: (← scanBracketed? opening closing picks ts depth positions)
    else scanBracketed? opening closing picks ts depth positions

/-- Declared names directly inside a body.  The depth counts its own brace. -/
def scanMembers? : List Token → Nat → List Nat → Option (List String) :=
  scanBracketed? openBrace closeBrace fun depth t next =>
    depth == 1 && t.isIdentifier && next.any (·.endsDeclarator)

/-- Identifiers of a layout list.  The depth counts its own parenthesis. -/
def scanList? : List Token → Nat → List Nat → Option (List String) :=
  scanBracketed? "(" ")" fun _ t _ => t.isIdentifier

/-- The block that begins at the `i`-th position, if one does. -/
def scanBlock? (ts : List Token) (positions : List Nat) (i : Nat) : Option (List Block) := do
  let keyword ← tokenAt? ts positions i
  let name ← tokenAt? ts positions (i + 1)
  let brace ← tokenAt? ts positions (i + 2)
  if keyword.opensBlock && name.isIdentifier && brace.isPunctuation openBrace then
    let body ← sliceFrom? positions (i + 3)
    return [⟨keyword.text, name.text, ← scanMembers? ts 1 body⟩]
  else return []

def scanBlocks? (ts : List Token) (positions : List Nat) : Option (List Block) :=
  ((List.range (positions.length - 2)).mapM (scanBlock? ts positions)).map List.flatten

/-- Identifiers of the layout list that begins at the `i`-th position, if one does.  Its
    own parenthesis is read with the list. -/
def scanLayout? (ts : List Token) (positions : List Nat) (i : Nat) : Option (List String) := do
  let keyword ← tokenAt? ts positions i
  let paren ← tokenAt? ts positions (i + 1)
  if keyword.isWord "layout" && paren.isPunctuation "(" then
    scanList? ts 0 (← sliceFrom? positions (i + 1))
  else return []

def scanLayouts? (ts : List Token) (positions : List Nat) : Option (List String) :=
  ((List.range (positions.length - 1)).mapM (scanLayout? ts positions)).map List.flatten

/-! ## §5. Global declarations. -/

/-- Names declared visible to the host from scope `s` on. -/
def scanInterfaces? (ts : List Token) (s : Scope) : List Nat → Option (List String)
  | [] => some []
  | position :: positions => do
    let t ← ts[position]?
    let later ← scanInterfaces? ts (s.step t) positions
    return if s.declares t (nextSignificant ts position) then t.text :: later else later

/-! ## §6. Rename sites. -/

/-- An identifier, and what its neighbours say about it. -/
structure Site where
  name : String
  isMember : Bool
  isRenameSite : Bool
  deriving DecidableEq, Repr

/-- Whether the token at a position may be respelled. -/
def isRenameSite? (ts : List Token) (position : Nat) : Option Bool := do
  let t ← ts[position]?
  if t.isIdentifier then
    let before ← prevSignificant? ts position
    return !before.any (fun u => u.isPunctuation "." || u.isPunctuation "#")
      && !(nextSignificant ts position).any (·.isPunctuation "(")
  else return false

/-- The site at a position where `t` stands, if `t` is an identifier. -/
def scanSite? (ts : List Token) (t : Token) (position : Nat) : Option (List Site) := do
  if t.isIdentifier then
    let before ← prevSignificant? ts position
    return [⟨t.text, before.any (·.isPunctuation "."), ← isRenameSite? ts position⟩]
  else return []

def scanSites? (ts : List Token) : Option (List Site) :=
  (ts.zipIdx.mapM fun x => scanSite? ts x.1 x.2).map List.flatten

/-! ## §7. Surveys. -/

/-- The survey of a list of tokens, found by positions. -/
def Survey.collect? (ts : List Token) : Option Survey := do
  let positions := significantPositions ts
  let directives ← scanDirectives? ts
  let functions ← scanFunctions? ts positions
  let found ← scanBlocks? ts positions
  let layouts ← scanLayouts? ts positions
  let interfaces ← scanInterfaces? ts .top positions
  let sites ← scanSites? ts
  return {
    protectedNames :=
      { functions := .ofNames functions
        structs := .ofNames ((found.filter (·.isStruct)).map (·.name))
        members := .ofNames (found.flatMap (·.members))
        directives := .ofNames directives
        interfaces := .ofNames ((found.filter (!·.isStruct)).map (·.name) ++ interfaces)
        layouts := .ofNames layouts }
    sites := .tally ((sites.filter (·.isRenameSite)).map (·.name))
    used := .ofNames ((sites.filter (!·.isMember)).map (·.name))
    fixed := .ofNames ((sites.filter fun s => !s.isRenameSite && !s.isMember).map (·.name)) }

end GlslMinifier
