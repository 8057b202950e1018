/-
  GlslMinifier.Survey — what a text declares and spells.

  A survey holds all that renaming has to know about a text: the names that must keep
  their spelling, how often each name could be respelled, and which names are spelled
  where respelling does not reach.
-/
import GlslMinifier.Declaration
import GlslMinifier.NameSet
import GlslMinifier.Token.Lexer
import GlslMinifier.Token.Site

namespace GlslMinifier

/-! ## §1. Protected names. -/

/-- Names that keep their spelling, by the reason for it. -/
structure ProtectedNames where
  functions : NameSet
  structs : NameSet
  members : NameSet
  /-- Words of preprocessor lines. -/
  directives : NameSet
  /-- Globals that the host program binds by name. -/
  interfaces : NameSet
  layouts : NameSet

namespace ProtectedNames

def empty : ProtectedNames := ⟨∅, ∅, ∅, ∅, ∅, ∅⟩

/-- The six sets. -/
def sets (p : ProtectedNames) : List NameSet :=
  [p.functions, p.structs, p.members, p.directives, p.interfaces, p.layouts]

/-- The names of the six sets, each as often as there are sets that hold it. -/
def names (p : ProtectedNames) : List String := p.sets.flatMap (·.toList)

/-- Whether a name keeps its spelling: keywords do, and the names of the six sets. -/
def contains (p : ProtectedNames) (name : String) : Bool :=
  isKeyword name || p.sets.any (·.contains name)

/-- The protected names of two texts together. -/
def merge (p q : ProtectedNames) : ProtectedNames where
  functions := p.functions ∪ q.functions
  structs := p.structs ∪ q.structs
  members := p.members ∪ q.members
  directives := p.directives ∪ q.directives
  interfaces := p.interfaces ∪ q.interfaces
  layouts := p.layouts ∪ q.layouts

/-- Identifiers of a preprocessor line.  The text after its `#` is read like a line of
    its own. -/
def directiveWords (t : Token) : List String :=
  ((tokenize (String.ofList t.text.toList.tail)).filter (·.isIdentifier)).map (·.text)

/-- Protected names of a list of tokens. -/
def ofTokens (ts : List Token) : ProtectedNames :=
  let sig := Token.significant ts
  let found := blocks sig
  { functions := .ofNames (functionNames sig)
    structs := .ofNames ((found.filter (·.isStruct)).map (·.name))
    members := .ofNames (found.flatMap (·.members))
    directives := .ofNames ((sig.filter (·.kind == .directive)).flatMap directiveWords)
    interfaces :=
      .ofNames ((found.filter (!·.isStruct)).map (·.name) ++ interfaceNames .top sig)
    layouts := .ofNames (layoutNames sig) }

end ProtectedNames

/-! ## §2. Surveys. -/

/-- The names of a text. -/
structure Survey where
  protectedNames : ProtectedNames
  /-- Number of rename sites of each name that has any. -/
  sites : NameMap Nat
  /-- Names spelled anywhere but after a dot. -/
  used : NameSet
  /-- Names spelled where respelling leaves them alone, not after a dot. -/
  fixed : NameSet

namespace Survey

def empty : Survey := ⟨.empty, ∅, ∅, ∅⟩

/-- Names at the identifiers for which `p` holds. -/
def namesWhere (p : Occurrence → Bool) (ts : List Token) : List String :=
  ((occurrences ts).filter fun o => o.token.isIdentifier && p o).map (·.token.text)

/-- The survey of a list of tokens. -/
def ofTokens (ts : List Token) : Survey where
  protectedNames := .ofTokens ts
  sites := .tally (namesWhere (·.isRenameSite) ts)
  used := .ofNames (namesWhere (!·.isMember) ts)
  fixed := .ofNames (namesWhere (fun o => !o.isRenameSite && !o.isMember) ts)

/-- The survey of a text. -/
def ofText (text : String) : Survey := ofTokens (tokenize text)

/-- The survey of two texts together. -/
def merge (a b : Survey) : Survey where
  protectedNames := a.protectedNames.merge b.protectedNames
  sites := a.sites.sum b.sites
  used := a.used ∪ b.used
  fixed := a.fixed ∪ b.fixed

end Survey

end GlslMinifier
