/-
  GlslMinifier.Proofs.CharClass — the character classes of the lexer and of trimming.

  The classes are told apart by ranges of code points; what the rest of the development
  needs is which of them exclude each other.
-/
import GlslMinifier.Identifier
import GlslMinifier.Text.WhiteSpace

namespace GlslMinifier

/-! ## §1. Ranges. -/

theorem isUpper_iff {c : Char} : c.isUpper = true ↔ 65 ≤ c.toNat ∧ c.toNat ≤ 90 := by
  show decide (c.val ≥ 'A'.val ∧ c.val ≤ 'Z'.val) = true ↔ _
  rw [decide_eq_true_iff, ge_iff_le, UInt32.le_iff_toNat_le, UInt32.le_iff_toNat_le]
  rfl

theorem isLower_iff {c : Char} : c.isLower = true ↔ 97 ≤ c.toNat ∧ c.toNat ≤ 122 := by
  show (decide (c.val ≥ 'a'.val) && decide (c.val ≤ 'z'.val)) = true ↔ _
  rw [Bool.and_eq_true, decide_eq_true_iff, decide_eq_true_iff, ge_iff_le,
    UInt32.le_iff_toNat_le, UInt32.le_iff_toNat_le]
  rfl

theorem isDigit_iff {c : Char} : c.isDigit = true ↔ 48 ≤ c.toNat ∧ c.toNat ≤ 57 :=
  Char.isDigit_iff_toNat

theorem isAlpha_iff {c : Char} : c.isAlpha = true ↔ c.isUpper = true ∨ c.isLower = true := by
  show (c.isUpper || c.isLower) = true ↔ _
  rw [Bool.or_eq_true]

/-! ## §2. Word characters. -/

theorem isWordChar_of_isWordStart {c : Char} (h : isWordStart c = true) :
    isWordChar c = true := by
  simp only [isWordStart, isWordChar, Char.isAlphanum, Bool.or_eq_true] at h ⊢
  exact h.imp_left .inl

theorem isWordChar_of_isDigit {c : Char} (h : c.isDigit = true) : isWordChar c = true := by
  simp [isWordChar, Char.isAlphanum, h]

theorem isNumberChar_of_isWordChar {c : Char} (h : isWordChar c = true) :
    isNumberChar c = true := by
  simp only [isWordChar, isNumberChar, Bool.or_eq_true] at h ⊢
  exact .inl h

/-- Word characters have no other role in the lexer. -/
theorem ne_of_isWordChar {c : Char} (h : isWordChar c = true) :
    ∀ d ∈ ['\n', '#', '/', '*', '.', '+', '-'], c ≠ d := by
  intro d hd heq
  subst heq
  simp only [List.mem_cons, List.not_mem_nil, or_false] at hd
  rcases hd with rfl | rfl | rfl | rfl | rfl | rfl | rfl <;> exact absurd h (by decide)

theorem toNat_of_isWordChar {c : Char} (h : isWordChar c = true) :
    48 ≤ c.toNat ∧ c.toNat < 128 := by
  simp only [isWordChar, Char.isAlphanum, Bool.or_eq_true, beq_iff_eq, isAlpha_iff, isUpper_iff,
    isLower_iff, isDigit_iff] at h
  rcases h with ((h | h) | h) | rfl
  · omega
  · omega
  · omega
  · decide

theorem isBlank_eq_false_of_isWordChar {c : Char} (h : isWordChar c = true) :
    isBlank c = false := by
  cases hb : isBlank c with
  | false => rfl
  | true =>
    simp only [isBlank, Bool.or_eq_true, beq_iff_eq] at hb
    rcases hb with (((rfl | rfl) | rfl) | rfl) | rfl <;> exact absurd h (by decide)

theorem isBlank_eq_false_of_isNumberChar {c : Char} (h : isNumberChar c = true) :
    isBlank c = false := by
  have hchar : isWordChar c = true ∨ c = '.' := by simpa [isNumberChar, isWordChar] using h
  rcases hchar with hword | rfl
  · exact isBlank_eq_false_of_isWordChar hword
  · decide

theorem isWordStart_eq_false_of_isDigit {c : Char} (h : c.isDigit = true) :
    isWordStart c = false := by
  cases hs : isWordStart c with
  | false => rfl
  | true =>
    have hrange := isDigit_iff.1 h
    simp only [isWordStart, Bool.or_eq_true, beq_iff_eq, isAlpha_iff, isUpper_iff,
      isLower_iff] at hs
    rcases hs with (hs | hs) | rfl
    · omega
    · omega
    · exact absurd h (by decide)

theorem isDigit_eq_false_of_isWordStart {c : Char} (h : isWordStart c = true) :
    c.isDigit = false := by
  cases hd : c.isDigit with
  | false => rfl
  | true => simp [isWordStart_eq_false_of_isDigit hd] at h

theorem isWordChar_of_isIdentifier {name : String} (h : isIdentifier name = true) :
    ∀ c ∈ name.toList, isWordChar c = true := by
  unfold isIdentifier at h
  split at h
  next heq => simp [heq]
  next c cs heq =>
    simp only [Bool.and_eq_true, List.all_eq_true] at h
    rw [heq]
    exact List.forall_mem_cons.2 ⟨isWordChar_of_isWordStart h.1, h.2⟩

/-! ## §3. White space. -/

theorem isWhiteSpace_of_isBlank {c : Char} (h : isBlank c = true) : isWhiteSpace c = true := by
  simp only [isBlank, Bool.or_eq_true, beq_iff_eq] at h
  rcases h with (((rfl | rfl) | rfl) | rfl) | rfl <;> decide

theorem isWhiteSpace_eq_false_of_isWordChar {c : Char} (h : isWordChar c = true) :
    isWhiteSpace c = false := by
  obtain ⟨hlow, hhigh⟩ := toNat_of_isWordChar h
  rw [← Bool.not_eq_true]
  intro hwhite
  simp only [isWhiteSpace, Bool.or_eq_true, Bool.and_eq_true, decide_eq_true_eq,
    beq_iff_eq] at hwhite
  omega

end GlslMinifier
