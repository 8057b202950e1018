/-
  GlslMinifier.Alias.Word — the sequence of alias words.

  Words over the letters `a` to `z`, shorter words first and words of one length in
  alphabetical order: `a` … `z`, `aa`, `ab`, …  This is the bijective numeral system with
  one digit for each letter.
-/

namespace GlslMinifier

/-- Number of letters that aliases are written with. -/
def alphabetSize : Nat := 26

/-- Letter number `i` of the alphabet. -/
def letter (i : Nat) : Char := Char.ofNat ('a'.toNat + i)

/-- Letters of the word at a position, counted from zero. -/
def wordLetters (position : Nat) : List Char :=
  if position < alphabetSize then [letter position]
  else wordLetters (position / alphabetSize - 1) ++ [letter (position % alphabetSize)]
termination_by position
decreasing_by
  rename_i h
  simp only [alphabetSize] at h ⊢
  omega

/-- The word at a position, counted from zero. -/
def word (position : Nat) : String := String.ofList (wordLetters position)

end GlslMinifier
