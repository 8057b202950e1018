/-
  GlslMinifier.Minify — the whole way from shader text to minified text.

  Comments and blank lines go first; then names are renamed; then lines are merged and
  the space between tokens is dropped.  Preprocessor lines come out as they went in.
-/
import GlslMinifier.Options.Basic
import GlslMinifier.Renaming
import GlslMinifier.Spacing

namespace GlslMinifier

/-- Result of a run. -/
structure Minified where
  content : String
  /-- Renamed names with their aliases, in the order of the names. -/
  aliases : List (String × String)
  deriving DecidableEq, Repr

/-- A text without comments, blank lines and white space around its lines. -/
def strippedSource (text : String) : String := unlines (trimLines (lines (stripComments text)))

/-- Lines of a stripped text merged and narrowed. -/
def compactSource (separator source : String) : String :=
  joinTrimmed separator
    (((segments (trimLines (lines source))).map (·.mapCode collapseSpaces)).map (·.text))

/-- Minifies a shader.  `plugins` claim names beside what the options ask for.  The only
    error is a preserved name that is no identifier. -/
def minify (options : Options) (plugins : List Filter) (text : String) :
    Except InvalidName Minified :=
  match options.invalidName? with
  | some e => .error e
  | none =>
    let source := strippedSource text
    if options.renames then
      let result := renameIdentifiers (options.filter plugins) source
      .ok ⟨compactSource options.separator result.content, result.table.pairs⟩
    else
      .ok ⟨compactSource options.separator source, []⟩

end GlslMinifier
