/-
  GlslMinifier.Renaming — giving names short aliases.

  Every name with a rename site that is neither protected nor claimed by the filter gets
  an alias.  An alias is never a keyword, never a protected name, and never a name that
  is still spelled somewhere after the renaming; it may be the old spelling of another
  renamed name, because all sites are respelled in one pass.
-/
import GlslMinifier.Alias.Table
import GlslMinifier.Filter

namespace GlslMinifier

namespace Survey

/-- Names to rename, in order. -/
def renamed (s : Survey) (filter : Filter) : List String :=
  (s.sites.toList.filter fun entry =>
    !(s.protectedNames.contains entry.1 || filter ⟨entry.1, entry.2⟩)).map (·.1)

/-- Names that no alias may take when `renamed` are renamed: keywords, protected names
    and every name that is still spelled afterwards. -/
def reservedFor (s : Survey) (renamed : List String) : List String :=
  Vocabulary.reservedWords ++ s.protectedNames.names
    ++ s.used.toList.filter (!renamed.contains ·) ++ s.fixed.toList

/-- Aliases for the names to rename, given in order. -/
def aliasTable (s : Survey) (filter : Filter) : AliasTable :=
  let names := s.renamed filter
  (AliasTable.empty.reserve (s.reservedFor names)).assignAll names

end Survey

/-- A text with its names renamed. -/
structure Renaming where
  content : String
  table : AliasTable

/-- Renames the names of a text, which should be free of comments. -/
def renameIdentifiers (filter : Filter) (text : String) : Renaming :=
  let table := (Survey.ofText text).aliasTable filter
  ⟨table.respellText text, table⟩

end GlslMinifier
