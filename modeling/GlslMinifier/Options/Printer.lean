/-
  GlslMinifier.Options.Printer — writing options as JSON text.

  This printer stands in for that of a JSON library (`OptionsFormat.standIn`).  All four
  fields are written in order.  The two layouts differ in white space only.
-/
import GlslMinifier.Json.Quoted
import GlslMinifier.Options.Basic

namespace GlslMinifier

open Json

/-- White space that a printer puts between the pieces of a JSON text. -/
structure JsonLayout where
  /-- Between a key's colon and its value. -/
  afterColon : String
  /-- At the beginning of an item `depth` brackets deep, or before a closing bracket. -/
  lineBreak : (depth : Nat) → String

namespace JsonLayout

/-- No white space. -/
def compact : JsonLayout := ⟨"", fun _ => ""⟩

/-- One item a line, two spaces for each bracket around it. -/
def pretty : JsonLayout :=
  ⟨" ", fun depth => "\n" ++ String.ofList (List.replicate (2 * depth) ' ')⟩

/-- Items between brackets, the brackets being `depth` brackets deep. -/
def enclose (layout : JsonLayout) (depth : Nat) (opening closing : String) (items : List String) :
    String :=
  if items = [] then opening ++ closing
  else
    opening ++ layout.lineBreak (depth + 1)
      ++ ("," ++ layout.lineBreak (depth + 1)).intercalate items
      ++ layout.lineBreak depth ++ closing

end JsonLayout

/-- A choice as a JSON literal. -/
def printChoice : Option Bool → String
  | none => "null"
  | some true => "true"
  | some false => "false"

/-- The value of a field as JSON text in an object. -/
def OptionField.print (layout : JsonLayout) (o : Options) : OptionField → String
  | rename => printChoice o.rename
  | namingConvention => printChoice o.namingConvention
  | preserveNames => layout.enclose 1 "[" "]" (o.preserveNames.map quote)
  | escapeNewlines => printChoice o.escapeNewlines

/-- Options as JSON text. -/
def Options.print (layout : JsonLayout) (o : Options) : String :=
  layout.enclose 0 "\x7b" "\x7d"
    (OptionField.all.map fun f =>
      quote f.key ++ ":" ++ layout.afterColon ++ f.print layout o)

end GlslMinifier
