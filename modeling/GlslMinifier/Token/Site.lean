/-
  GlslMinifier.Token.Site — tokens in context.

  What may be done to an identifier depends on the tokens around it, and only on those
  that carry meaning: blanks, line breaks and comments between them make no difference.
-/
import GlslMinifier.Token.Basic

namespace GlslMinifier

/-- A token with its nearest neighbours that carry meaning. -/
structure Occurrence where
  before : Option Token
  token : Token
  after : Option Token
  deriving DecidableEq, Repr

namespace Occurrence

/-- An identifier after a dot. -/
def isMember (o : Occurrence) : Bool := o.before.any (·.isPunctuation ".")

/-- An identifier that may be respelled: not a member, not a word after `#`, and not
    directly called. -/
def isRenameSite (o : Occurrence) : Bool :=
  o.token.isIdentifier
    && !o.before.any (fun t => t.isPunctuation "." || t.isPunctuation "#")
    && !o.after.any (·.isPunctuation "(")

end Occurrence

/-- Each token with its neighbours, where `before` is the last token with a meaning that
    stands before the list. -/
def occurrencesAfter (before : Option Token) : List Token → List Occurrence
  | [] => []
  | t :: ts =>
    ⟨before, t, ts.find? (!·.isTrivia)⟩
      :: occurrencesAfter (if t.isTrivia then before else some t) ts

/-- Each token of a text with its neighbours. -/
def occurrences (ts : List Token) : List Occurrence := occurrencesAfter none ts

@[simp] theorem occurrencesAfter_map_token (before : Option Token) (ts : List Token) :
    (occurrencesAfter before ts).map (·.token) = ts := by
  induction ts generalizing before with
  | nil => rfl
  | cons t ts ih => simp [occurrencesAfter, ih]

/-- The token after the new spelling of its name, if `spelling?` gives one and the token
    stands at a rename site. -/
def Occurrence.respell (spelling? : String → Option String) (o : Occurrence) : Token :=
  match spelling? o.token.text with
  | some spelling => if o.isRenameSite then { o.token with text := spelling } else o.token
  | none => o.token

/-- Respells every rename site in one pass: a new spelling is never respelled again. -/
def respell (spelling? : String → Option String) (ts : List Token) : List Token :=
  (occurrences ts).map (·.respell spelling?)

@[simp] theorem length_occurrencesAfter (before : Option Token) (ts : List Token) :
    (occurrencesAfter before ts).length = ts.length := by
  rw [← List.length_map (·.token), occurrencesAfter_map_token]

@[simp] theorem length_respell (spelling? : String → Option String) (ts : List Token) :
    (respell spelling? ts).length = ts.length := by
  simp [respell, occurrences]

end GlslMinifier
