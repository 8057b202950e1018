/-
  GlslMinifier.Proofs.Alias.Rendering — alias words as numerals.

  An alias word is a numeral in a system that has a digit for each letter and none for
  zero.  Its letters are found from the last one on: one is taken off what is left before
  each division by the size of the alphabet.  Positions and words match one to one, and in
  order.

  Main results:
    * `wordLetters_eq_reverse` — dividing finds the letters of a word
    * `numeral_wordLetters` — reading a word as a numeral finds its position
    * `length_wordLetters_le_iff` — where the words get longer
    * `word_orderIsomorphism` — positions and words match one to one, and in order
-/
import GlslMinifier.Proofs.Alias.Enumeration

namespace GlslMinifier

/-! ## §1. Finding letters by division. -/

/-- The letters that dividing `n` finds, the last letter of the word first. -/
def lettersFromLast : (n : Nat) → List Char
  | 0 => []
  | n + 1 => letter (n % alphabetSize) :: lettersFromLast (n / alphabetSize)
termination_by n => n
decreasing_by exact Nat.lt_succ_of_le (Nat.div_le_self n alphabetSize)

/-- What is left after the last letter counts the words up to the one before it. -/
theorem pred_div_add_one {p : Nat} (h : alphabetSize ≤ p) :
    p / alphabetSize - 1 + 1 = p / alphabetSize := by
  have hpos : 1 ≤ p / alphabetSize := (Nat.one_le_div_iff (by decide)).2 h
  omega

theorem wordLetters_eq_reverse (p : Nat) :
    wordLetters p = (lettersFromLast (p + 1)).reverse := by
  fun_induction wordLetters p with
  | case1 p h =>
    rw [lettersFromLast, Nat.mod_eq_of_lt h, Nat.div_eq_of_lt h, lettersFromLast]
    rfl
  | case2 p h ih =>
    rw [lettersFromLast, List.reverse_cons, ih, pred_div_add_one (Nat.not_lt.1 h)]

/-! ## §2. Reading words as numerals. -/

/-- The digit that a letter stands for.  The first letter is the digit one. -/
def digitOf (c : Char) : Nat := c.toNat - 'a'.toNat + 1

/-- The number that letters stand for as digits. -/
def numeral (cs : List Char) : Nat := cs.foldl (fun n c => n * alphabetSize + digitOf c) 0

/-- The position of a word in the sequence of alias words. -/
def positionOf (w : String) : Nat := numeral w.toList - 1

theorem numeral_concat (cs : List Char) (c : Char) :
    numeral (cs ++ [c]) = numeral cs * alphabetSize + digitOf c := by
  unfold numeral
  rw [List.foldl_append]
  rfl

theorem digitOf_letter {i : Nat} (h : i < alphabetSize) : digitOf (letter i) = i + 1 := by
  unfold digitOf
  rw [toNat_letter i h]
  omega

theorem numeral_wordLetters (p : Nat) : numeral (wordLetters p) = p + 1 := by
  fun_induction wordLetters p with
  | case1 p h =>
    show numeral ([] ++ [letter p]) = p + 1
    rw [numeral_concat, digitOf_letter h]
    show 0 * alphabetSize + (p + 1) = p + 1
    omega
  | case2 p h ih =>
    have hdigit : p % alphabetSize < alphabetSize := Nat.mod_lt p (by decide)
    have hparts : p / alphabetSize * alphabetSize + p % alphabetSize = p :=
      Nat.div_add_mod' p alphabetSize
    rw [numeral_concat, ih, digitOf_letter hdigit, pred_div_add_one (Nat.not_lt.1 h)]
    omega

theorem positionOf_word (p : Nat) : positionOf (word p) = p := by
  unfold positionOf word
  rw [String.toList_ofList, numeral_wordLetters]
  exact Nat.add_sub_cancel p 1

/-! ## §3. Where words get longer. -/

/-- Number of words of at most `n` letters.  One of at most `n + 1` letters is one of at
    most `n`, or nothing, and a last letter. -/
def wordsUpTo : (n : Nat) → Nat
  | 0 => 0
  | n + 1 => (wordsUpTo n + 1) * alphabetSize

/-- The words of at most `n` letters stand first. -/
theorem length_wordLetters_le_iff (p n : Nat) :
    (wordLetters p).length ≤ n ↔ p < wordsUpTo n := by
  induction n generalizing p with
  | zero =>
    have hpos := List.length_pos_iff.2 (wordLetters_ne_nil p)
    show (wordLetters p).length ≤ 0 ↔ p < 0
    omega
  | succ n ih =>
    show _ ↔ p < (wordsUpTo n + 1) * alphabetSize
    rw [← Nat.div_lt_iff_lt_mul (by decide)]
    rcases Nat.lt_or_ge p alphabetSize with hp | hp
    · -- a word of one letter
      rw [wordLetters_of_lt hp, Nat.div_eq_of_lt hp]
      show 1 ≤ n + 1 ↔ 0 < wordsUpTo n + 1
      omega
    · -- one letter more than a word further ahead
      have hpred := pred_div_add_one hp
      rw [wordLetters_of_ge hp, List.length_append]
      show (wordLetters (p / alphabetSize - 1)).length + 1 ≤ n + 1 ↔ _
      have hshorter := ih (p / alphabetSize - 1)
      omega

/-! ## §4. Positions and words. -/

/-- **Positions and alias words match one to one, and in order.**  The letters of a word
    are those that dividing its position finds, the last one first.  The words that are
    found so are the words over the alphabet, each at one position only, at which reading
    the word arrives.  A smaller position has a shorter word, or an earlier one of the same
    length, and the words of each length begin where those of all smaller lengths end. -/
theorem word_orderIsomorphism :
    (∀ p, (word p).toList = (lettersFromLast (p + 1)).reverse)
      ∧ (∀ w, IsAliasWord w ↔ ∃! p, word p = w)
      ∧ (∀ p q, p < q ↔ Precedes (word p) (word q))
      ∧ (∀ p, positionOf (word p) = p)
      ∧ ∀ p n, (word p).length ≤ n ↔ p < wordsUpTo n := by
  refine ⟨fun p => ?_, fun w => ?_, fun p q => word_precedes_iff.symm, positionOf_word,
    fun p n => ?_⟩
  · rw [word, String.toList_ofList, wordLetters_eq_reverse]
  · constructor
    · intro hw
      obtain ⟨p, hp⟩ := exists_word_eq hw
      refine ⟨p, hp, fun q hq => ?_⟩
      apply word_injective
      rw [hp]
      exact hq
    · rintro ⟨p, rfl, -⟩
      exact isAliasWord_word p
  · rw [← length_wordLetters_le_iff, word, ← String.length_toList, String.toList_ofList]

/-- The words of three letters begin at position 702. -/
example : (word 701, word 702) = ("zz", "aaa") ∧ wordsUpTo 2 = 702 := by decide +kernel

end GlslMinifier
