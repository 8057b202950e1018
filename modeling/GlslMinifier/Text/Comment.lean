/-
  GlslMinifier.Text.Comment — comments as text.

  `splitClose?` finds the end of a block comment; the lexer and `stripComments` share it,
  so both mean the same span by "block comment".
-/

namespace GlslMinifier

/-! ## §1. The end of a block comment. -/

/-- Splits after the first closing mark `*/`: the characters up to and including it, and
    the rest.  `none` when there is no closing mark. -/
def splitClose? : List Char → Option (List Char × List Char)
  | [] => none
  | '*' :: '/' :: rest => some (['*', '/'], rest)
  | c :: cs => (splitClose? cs).map fun found => (c :: found.1, found.2)

theorem splitClose?_append {cs body rest : List Char}
    (h : splitClose? cs = some (body, rest)) : body ++ rest = cs := by
  fun_induction splitClose? cs generalizing body rest with
  | case1 => simp at h
  | case2 tail =>
    cases h
    rfl
  | case3 c cs _ ih =>
    simp only [Option.map_eq_some_iff] at h
    obtain ⟨found, hfound, heq⟩ := h
    cases heq
    simp [ih hfound]

theorem splitClose?_shorter {cs body rest : List Char}
    (h : splitClose? cs = some (body, rest)) : rest.length + 2 ≤ cs.length := by
  fun_induction splitClose? cs generalizing body rest with
  | case1 => simp at h
  | case2 tail => simp_all
  | case3 c cs _ ih =>
    simp only [Option.map_eq_some_iff] at h
    obtain ⟨found, hfound, heq⟩ := h
    cases heq
    have := ih hfound
    simp only [List.length_cons]
    omega

/-! ## §2. Stripping. -/

/-- Replaces every block comment by one space, from left to right.  Text from the first
    block comment without an end is kept as it is. -/
def blankBlockComments : List Char → List Char
  | '/' :: '*' :: cs =>
    match _h : splitClose? cs with
    | some (_, rest) => ' ' :: blankBlockComments rest
    | none => '/' :: '*' :: cs
  | c :: cs => c :: blankBlockComments cs
  | [] => []
termination_by cs => cs.length
decreasing_by
  · have := splitClose?_shorter _h
    simp only [List.length_cons]
    omega
  · simp

/-- Cuts every line at its first `//`. -/
def cutLineComments : List Char → List Char
  | '/' :: '/' :: cs => cutLineComments (cs.dropWhile (· != '\n'))
  | c :: cs => c :: cutLineComments cs
  | [] => []
termination_by cs => cs.length
decreasing_by
  · have := (List.dropWhile_suffix (l := cs) (· != '\n')).length_le
    simp only [List.length_cons]
    omega
  · simp

/-- Removes comments: block comments first, then the line comments of what is left.  The
    search is purely lexical, so a mark inside another construct counts as well. -/
def stripComments (text : String) : String :=
  String.ofList (cutLineComments (blankBlockComments text.toList))

end GlslMinifier
