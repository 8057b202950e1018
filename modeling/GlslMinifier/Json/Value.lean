/-
  GlslMinifier.Json.Value — passing over JSON values.

  A value that nobody asked for is read past (`skipValue`); a value of another type than
  the one asked for is read as far as its kind shows (`misplaced`).
-/
import GlslMinifier.Json.Number
import GlslMinifier.Json.Quoted

namespace GlslMinifier.Json

/-! ## §1. Values that nobody asked for. -/

/-- Reads past a literal, a string or a number. -/
def skipScalar : List Char → Except Fault (List Char)
  | [] => .error .truncated
  | 'n' :: cs => expect ['u', 'l', 'l'] cs
  | 't' :: cs => expect ['r', 'u', 'e'] cs
  | 'f' :: cs => expect ['a', 'l', 's', 'e'] cs
  | '"' :: cs => (readQuoted false cs).map (·.2)
  | '-' :: cs => skipNumeral cs
  | c :: cs => if c.isDigit then skipNumeral (c :: cs) else .error .malformed

/-- Reads past the colon after a key. -/
def skipColon (cs : List Char) : Except Fault (List Char) :=
  match skipSpace cs with
  | ':' :: rest => .ok rest
  | rest => .error (unexpected rest)

/-- Reads past a key and the colon after it. -/
def skipKey (cs : List Char) : Except Fault (List Char) :=
  match skipSpace cs with
  | '"' :: rest => do
    let (_, rest) ← readQuoted false rest
    skipColon rest
  | rest => .error (unexpected rest)

theorem skipScalar_length {cs rest : List Char} (h : skipScalar cs = .ok rest) :
    rest.length < cs.length := by
  fun_cases skipScalar cs with
  | case1 => simp [skipScalar] at h
  | case2 cs =>
    have := expect_length_le (by simpa only [skipScalar] using h)
    simp only [List.length_cons]
    omega
  | case3 cs =>
    have := expect_length_le (by simpa only [skipScalar] using h)
    simp only [List.length_cons]
    omega
  | case4 cs =>
    have := expect_length_le (by simpa only [skipScalar] using h)
    simp only [List.length_cons]
    omega
  | case5 cs =>
    simp only [skipScalar, map_eq_ok, Prod.exists] at h
    obtain ⟨s, rest', h, rfl⟩ := h
    have := readQuoted_length h
    simp only [List.length_cons]
    omega
  | case6 cs =>
    have := skipNumeral_length (by simpa only [skipScalar] using h)
    simp only [List.length_cons]
    omega
  | case7 c cs _ _ _ _ _ hdigit =>
    simp only [skipScalar, hdigit, if_true] at h
    exact skipNumeral_length h
  | case8 c cs _ _ _ _ _ hdigit => simp [skipScalar, hdigit] at h

theorem skipSpace_cons_length {cs rest : List Char} {c : Char} (h : skipSpace cs = c :: rest) :
    rest.length < cs.length := by
  have := skipSpace_length_le cs
  rw [h, List.length_cons] at this
  omega

theorem skipColon_length {cs rest : List Char} (h : skipColon cs = .ok rest) :
    rest.length < cs.length := by
  simp only [skipColon] at h
  split at h
  · next rest' hspace =>
    cases h
    exact skipSpace_cons_length hspace
  · cases h

theorem skipKey_length {cs rest : List Char} (h : skipKey cs = .ok rest) :
    rest.length < cs.length := by
  simp only [skipKey] at h
  split at h
  · next rest' hspace =>
    simp only [bind_eq_ok, Prod.exists] at h
    obtain ⟨s, mid, hquoted, hcolon⟩ := h
    have := skipSpace_cons_length hspace
    have := readQuoted_length hquoted
    have := skipColon_length hcolon
    omega
  · cases h

/-- A bracket that is still open. -/
inductive Bracket
  | array
  | object
  deriving DecidableEq, Repr

/-- Reads on after a value, `around` being the brackets open around it, the innermost
    first.  Finds the brackets that are open before the next value; if there are none, no
    value follows. -/
def skipEnds : (around : List Bracket) → List Char → Except Fault (Found (List Bracket))
  | [], cs => .ok ([], cs)
  | .array :: outer, cs =>
    match skipSpace cs with
    | ']' :: rest => skipEnds outer rest
    | ',' :: rest => .ok (.array :: outer, rest)
    | rest => .error (unexpected rest)
  | .object :: outer, cs =>
    match skipSpace cs with
    | '\x7d' :: rest => skipEnds outer rest
    | ',' :: rest => (skipKey rest).map (.object :: outer, ·)
    | rest => .error (unexpected rest)

/-- Reads on up to the next value: goes inside an array or object that is not empty, and
    past any other value.  Finds the open brackets like `skipEnds`. -/
def skipStep (around : List Bracket) (cs : List Char) : Except Fault (Found (List Bracket)) :=
  match skipSpace cs with
  | '[' :: inside =>
    match skipSpace inside with
    | ']' :: rest => skipEnds around rest
    | _ => .ok (.array :: around, inside)
  | '\x7b' :: inside =>
    match skipSpace inside with
    | '\x7d' :: rest => skipEnds around rest
    | _ => (skipKey inside).map (.object :: around, ·)
  | scalar => do skipEnds around (← skipScalar scalar)

theorem skipEnds_length_le {around around' : List Bracket} {cs rest : List Char}
    (h : skipEnds around cs = .ok (around', rest)) : rest.length ≤ cs.length := by
  fun_induction skipEnds around cs with
  | case1 =>
    cases h
    exact Nat.le_refl _
  | case2 outer cs mid hspace ih =>
    have := ih h
    have := skipSpace_cons_length hspace
    omega
  | case3 outer cs mid hspace =>
    cases h
    have := skipSpace_cons_length hspace
    omega
  | case4 => cases h
  | case5 outer cs mid hspace ih =>
    have := ih h
    have := skipSpace_cons_length hspace
    omega
  | case6 outer cs mid hspace =>
    simp only [map_eq_ok] at h
    obtain ⟨rest', hkey, heq⟩ := h
    cases heq
    have := skipSpace_cons_length hspace
    have := skipKey_length hkey
    omega
  | case7 => cases h

theorem skipStep_length {around around' : List Bracket} {cs rest : List Char}
    (h : skipStep around cs = .ok (around', rest)) : rest.length < cs.length := by
  simp only [skipStep] at h
  split at h
  · next inside hspace =>
    have := skipSpace_cons_length hspace
    split at h
    · next hspace' =>
      have := skipSpace_cons_length hspace'
      have := skipEnds_length_le h
      omega
    · cases h
      omega
  · next inside hspace =>
    have := skipSpace_cons_length hspace
    split at h
    · next hspace' =>
      have := skipSpace_cons_length hspace'
      have := skipEnds_length_le h
      omega
    · simp only [map_eq_ok] at h
      obtain ⟨rest', hkey, heq⟩ := h
      cases heq
      have := skipKey_length hkey
      omega
  · simp only [bind_eq_ok] at h
    obtain ⟨mid, hscalar, h⟩ := h
    have := skipScalar_length hscalar
    have := skipSpace_length_le cs
    have := skipEnds_length_le h
    omega

/-- Reads past a value and the brackets open around it, the innermost first. -/
def skipValueIn (around : List Bracket) (cs : List Char) : Except Fault (List Char) :=
  match _h : skipStep around cs with
  | .error e => .error e
  | .ok ([], rest) => .ok rest
  | .ok (bracket :: outer, rest) => skipValueIn (bracket :: outer) rest
termination_by cs.length
decreasing_by exact skipStep_length _h

/-- Reads past a value. -/
def skipValue (cs : List Char) : Except Fault (List Char) := skipValueIn [] cs

theorem skipValueIn_length {around : List Bracket} {cs rest : List Char}
    (h : skipValueIn around cs = .ok rest) : rest.length < cs.length := by
  fun_induction skipValueIn around cs with
  | case1 => cases h
  | case2 around cs mid hstep =>
    cases h
    exact skipStep_length hstep
  | case3 around cs bracket outer mid hstep ih =>
    have := ih h
    have := skipStep_length hstep
    omega

theorem skipValue_length {cs rest : List Char} (h : skipValue cs = .ok rest) :
    rest.length < cs.length := skipValueIn_length h

/-! ## §2. Values of another type. -/

/-- The fault of a literal where another type of value is asked for. -/
def misplacedLiteral (expected cs : List Char) : Fault :=
  match expect expected cs with
  | .error e => e
  | .ok _ => .mistyped

/-- The fault of a text, without leading space, at whose front another type of value is
    asked for. -/
def misplaced : List Char → Fault
  | [] => .truncated
  | 'n' :: cs => misplacedLiteral ['u', 'l', 'l'] cs
  | 't' :: cs => misplacedLiteral ['r', 'u', 'e'] cs
  | 'f' :: cs => misplacedLiteral ['a', 'l', 's', 'e'] cs
  | '"' :: cs =>
    match readQuoted true cs with
    | .error e => e
    | .ok _ => .mistyped
  | '[' :: _ => .mistyped
  | '\x7b' :: _ => .mistyped
  | '-' :: cs => misplacedNumeral cs
  | c :: cs => if c.isDigit then misplacedNumeral (c :: cs) else .malformed

end GlslMinifier.Json
