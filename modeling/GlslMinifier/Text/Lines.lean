/-
  GlslMinifier.Text.Lines — texts as lines.

  A text is its lines joined by line breaks: `unlines_lines`.
-/
import GlslMinifier.Text.WhiteSpace

namespace GlslMinifier

/-- The pieces of a text between its line breaks; a text without one is one line. -/
def lines (text : String) : List String := (text.toList.splitOn '\n').map String.ofList

/-- Lines joined by line breaks. -/
def unlines (ls : List String) : String := "\n".intercalate ls

theorem unlines_lines (text : String) : unlines (lines text) = text := by
  apply String.toList_injective
  have h : String.toList ∘ String.ofList = id := funext fun _ => String.toList_ofList
  simp [unlines, lines, String.toList_intercalate, h, List.intercalate_splitOn]

/-- Lines trimmed at both ends, without those that are blank. -/
def trimLines (ls : List String) : List String := (ls.map trim).filter (· != "")

/-- Pieces joined by `separator`, the whole trimmed at both ends. -/
def joinTrimmed (separator : String) (pieces : List String) : String :=
  trim (separator.intercalate pieces)

end GlslMinifier
