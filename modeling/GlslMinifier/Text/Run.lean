/-
  GlslMinifier.Text.Run — maximal runs of characters.
-/

namespace GlslMinifier

/-- Splits `cs` where its first run of characters in the class `p` ends. -/
def splitRun (p : Char → Bool) (cs : List Char) : List Char × List Char :=
  (cs.takeWhile p, cs.dropWhile p)

theorem splitRun_append (p : Char → Bool) (cs : List Char) :
    (splitRun p cs).1 ++ (splitRun p cs).2 = cs :=
  List.takeWhile_append_dropWhile

theorem splitRun_length (p : Char → Bool) (cs : List Char) :
    (splitRun p cs).1.length + (splitRun p cs).2.length = cs.length := by
  rw [← List.length_append, splitRun_append]

theorem splitRun_eq {p : Char → Bool} {cs rest : List Char} (hall : ∀ c ∈ cs, p c = true)
    (hnext : rest.head?.any p = false) : splitRun p (cs ++ rest) = (cs, rest) := by
  have htake : rest.takeWhile p = [] ∧ rest.dropWhile p = rest := by
    cases rest with
    | nil => simp
    | cons c rest => simp_all
  simp [splitRun, List.takeWhile_append_of_pos hall, List.dropWhile_append_of_pos hall, htake]

end GlslMinifier
