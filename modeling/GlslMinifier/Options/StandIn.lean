/-
  GlslMinifier.Options.StandIn — a library of our own.

  It takes the place of the JSON library in the program.  Of the reason why it refuses a text
  it says the kind only.
-/
import GlslMinifier.Options.Format
import GlslMinifier.Options.Printer
import GlslMinifier.Options.Reader

namespace GlslMinifier

/-- The word that the stand-in has for a fault. -/
def Json.Fault.name : Json.Fault → String
  | .truncated => "Eof"
  | .malformed => "Syntax"
  | .mistyped => "Data"

def OptionsFormat.standIn : OptionsFormat where
  read text := (Options.parse text).mapError Json.Fault.name
  compact := Options.print .compact
  pretty := Options.print .pretty

end GlslMinifier
