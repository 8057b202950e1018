/-
  GlslMinifier.Alias.Table — names and their aliases.
-/
import GlslMinifier.Alias.Allocator
import GlslMinifier.NameSet
import GlslMinifier.Token.Lexer
import GlslMinifier.Token.Site

namespace GlslMinifier

/-- Aliases given so far, with the supply of further ones. -/
structure AliasTable where
  aliases : NameMap String
  allocator : Allocator

namespace AliasTable

def empty : AliasTable := ⟨∅, .empty⟩

/-- Keeps names from becoming aliases. -/
def reserve (t : AliasTable) (names : List String) : AliasTable :=
  { t with allocator := t.allocator.reserve names }

/-- The alias of a name: the one given before, or else the next of the supply. -/
def assign (t : AliasTable) (name : String) : String × AliasTable :=
  match t.aliases[name]? with
  | some spelling => (spelling, t)
  | none =>
    let taken := t.allocator.take
    (taken.1, ⟨t.aliases.insert name taken.1, taken.2⟩)

/-- Gives every name of a list its alias, in order. -/
def assignAll (t : AliasTable) (names : List String) : AliasTable :=
  names.foldl (fun t name => (t.assign name).2) t

/-- Sets an alias by hand; the supply of aliases is not asked. -/
def insert (t : AliasTable) (name spelling : String) : AliasTable :=
  { t with aliases := t.aliases.insert name spelling }

/-- Names with their aliases, in the order of the names. -/
def pairs (t : AliasTable) : List (String × String) := t.aliases.toList

/-- Tokens with aliases at the rename sites of the names that have one. -/
def respell (t : AliasTable) (ts : List Token) : List Token :=
  GlslMinifier.respell (fun name => t.aliases[name]?) ts

/-- A text with aliases at the rename sites of the names that have one. -/
def respellText (t : AliasTable) (text : String) : String :=
  Token.spell (t.respell (tokenize text))

end AliasTable

end GlslMinifier
