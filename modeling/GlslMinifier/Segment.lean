/-
  GlslMinifier.Segment — merging lines.

  A preprocessor line has to stay on a line of its own; all other neighbouring lines may
  share one.  `segments` cuts a list of lines accordingly.
-/
import GlslMinifier.Text.Lines

namespace GlslMinifier

/-- What a line is for the preprocessor. -/
inductive LineKind
  | directive
  | code
  deriving DecidableEq, Repr

/-- A line is a directive if it begins with `#`. -/
def LineKind.ofLine (line : String) : LineKind :=
  if line.toList.head? = some '#' then .directive else .code

/-- One line of compacted text. -/
structure Segment where
  kind : LineKind
  text : String
  deriving DecidableEq, Repr

/-- One segment for each directive and for each run of code lines in between; in a run,
    every line is followed by one space. -/
def segments : List String → List Segment
  | [] => []
  | line :: rest =>
    match LineKind.ofLine line, segments rest with
    | .directive, later => ⟨.directive, line⟩ :: later
    | .code, ⟨.code, run⟩ :: later => ⟨.code, line ++ " " ++ run⟩ :: later
    | .code, later => ⟨.code, line ++ " "⟩ :: later

/-- Applies `f` to the text of a code segment. -/
def Segment.mapCode (f : String → String) (s : Segment) : Segment :=
  match s.kind with
  | .directive => s
  | .code => { s with text := f s.text }

/-- Backslash and `n`: a line break as it is written inside a string literal. -/
def escapedNewline : String := "\\n"

/-- Lines compacted into one line, line breaks written as escapes. -/
def compact (ls : List String) : String :=
  joinTrimmed escapedNewline ((segments ls).map (·.text))

end GlslMinifier
