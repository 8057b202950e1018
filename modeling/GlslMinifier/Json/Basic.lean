/-
  GlslMinifier.Json.Basic — reading JSON text from the front.

  These readers stand in for those of a JSON library (`OptionsFormat.standIn`).  A reader
  takes a piece from the front of a text and hands on the rest.  Reading is one pass, so of
  several faults the first one in the text counts.
-/
import GlslMinifier.Json.Grammar

namespace GlslMinifier.Json

/-! ## §1. Faults and readers. -/

/-- Why a text is refused. -/
inductive Fault
  /-- The text ends too early. -/
  | truncated
  /-- The text is not JSON. -/
  | malformed
  /-- The text is JSON so far, but not of the form that is asked for. -/
  | mistyped
  deriving DecidableEq, Repr

/-- A value read from the front of a text, and the rest of the text. -/
abbrev Found (α : Type) := α × List Char

theorem bind_eq_ok {α β : Type} {x : Except Fault α} {f : α → Except Fault β} {b : β} :
    x >>= f = .ok b ↔ ∃ a, x = .ok a ∧ f a = .ok b := by
  cases x <;> simp [bind, Except.bind]

theorem ok_bind {α β : Type} (a : α) (f : α → Except Fault β) : (Except.ok a >>= f) = f a := rfl

/-- The fault of a text whose rest is none of what may come next. -/
def unexpected : List Char → Fault
  | [] => .truncated
  | _ :: _ => .malformed

/-! ## §2. Space and literals. -/

def skipSpace (cs : List Char) : List Char := cs.dropWhile isSpace

theorem skipSpace_length_le (cs : List Char) : (skipSpace cs).length ≤ cs.length :=
  (List.dropWhile_suffix _).length_le

/-- Reads past the given characters. -/
def expect : (expected cs : List Char) → Except Fault (List Char)
  | [], cs => .ok cs
  | _ :: _, [] => .error .truncated
  | e :: es, c :: cs => if c == e then expect es cs else .error .malformed

theorem expect_length_le {expected cs rest : List Char} (h : expect expected cs = .ok rest) :
    rest.length ≤ cs.length := by
  fun_induction expect expected cs with
  | case1 cs => simp_all
  | case2 => simp at h
  | case3 e es c cs _ ih =>
    have := ih h
    simp only [List.length_cons]
    omega
  | case4 => simp at h

end GlslMinifier.Json
