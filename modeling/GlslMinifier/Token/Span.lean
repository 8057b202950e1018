/-
  GlslMinifier.Token.Span — where tokens stand.

  Positions count the bytes of the UTF-8 encoding.  They are computed from the token
  lengths, so spans of a token list are contiguous by construction.
-/
import GlslMinifier.Token.Basic

namespace GlslMinifier

/-- A half-open range of byte positions. -/
structure Span where
  start : Nat
  stop : Nat
  deriving DecidableEq, Repr

/-- Tokens paired with their spans, the first one standing at `start`. -/
def Token.locateFrom (start : Nat) : List Token → List (Token × Span)
  | [] => []
  | t :: ts =>
    let stop := start + t.text.utf8ByteSize
    (t, ⟨start, stop⟩) :: locateFrom stop ts

/-- Tokens of a whole text paired with their spans. -/
def Token.locate (ts : List Token) : List (Token × Span) := locateFrom 0 ts

end GlslMinifier
