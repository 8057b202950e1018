/-
  GlslMinifier.Proofs.Json.Number — reading past JSON numbers.

  A number is read as far as it goes, so it is told apart from what follows by the next
  character alone.

  Main results:
    * `skipNumeral_append` — passing over a number that nothing continues
-/
import GlslMinifier.Json.Number

namespace GlslMinifier.Json

/-! ## §1. Reading the parts. -/

/-- A number may go on with this character. -/
def continuesNumeral (c : Char) : Bool := c.isDigit || c == '.' || c == 'e' || c == 'E'

variable {ds rest : List Char}

theorem readDigits_append (h : IsDigits ds) (hrest : rest.head?.any Char.isDigit = false) :
    readDigits (ds ++ rest) = .ok (ds, rest) := by
  rw [readDigits, splitRun_eq h.digit hrest]
  exact if_neg h.nonempty

theorem readWhole_append (h : IsWhole ds) (hrest : rest.head?.any Char.isDigit = false) :
    readWhole (ds ++ rest) = .ok (ds, rest) := by
  have hzero : ¬(ds.head? = some '0' ∧ 1 < ds.length) := by
    rintro ⟨hhead, hlength⟩
    rw [h.noLeadingZero hhead] at hlength
    exact absurd hlength (by decide)
  simp only [readWhole, readDigits_append h.toIsDigits hrest, bind, Except.bind, if_neg hzero]

theorem readFraction_append {fraction : List Char} (h : IsFraction fraction)
    (hdigit : rest.head?.any Char.isDigit = false) (hpoint : rest.head? ≠ some '.') :
    ∃ ds, readFraction (fraction ++ rest) = .ok (ds, rest) := by
  cases h with
  | none =>
    refine ⟨[], ?_⟩
    rw [List.nil_append, readFraction]
    rintro cs rfl
    exact hpoint rfl
  | point hds => exact ⟨_, readDigits_append hds hdigit⟩

theorem dropSign_append {sign : List Char} (hsign : sign = [] ∨ sign = ['+'] ∨ sign = ['-'])
    (h : IsDigits ds) : dropSign (sign ++ (ds ++ rest)) = ds ++ rest := by
  obtain rfl | rfl | rfl := hsign
  · cases ds with
    | nil => exact absurd rfl h.nonempty
    | cons d ds =>
      have hd := h.digit d List.mem_cons_self
      rw [List.nil_append, List.cons_append, dropSign]
      · rintro cs heq
        cases heq
        exact absurd hd (by decide)
      · rintro cs heq
        cases heq
        exact absurd hd (by decide)
  · rfl
  · rfl

theorem readExponent_append {exponent : List Char} (h : IsExponent exponent)
    (hdigit : rest.head?.any Char.isDigit = false) (hlower : rest.head? ≠ some 'e')
    (hupper : rest.head? ≠ some 'E') :
    ∃ n, readExponent (exponent ++ rest) = .ok (n, rest) := by
  cases h with
  | none =>
    refine ⟨0, ?_⟩
    rw [List.nil_append, readExponent]
    · rintro cs rfl
      exact hlower rfl
    · rintro cs rfl
      exact hupper rfl
  | mark hmark hsign hds =>
    rw [List.cons_append, List.append_assoc]
    obtain rfl | rfl := hmark <;>
      exact ⟨_, by simp only [readExponent, readSigned, dropSign_append hsign hds,
        readDigits_append hds hdigit, bind, Except.bind]; rfl⟩

/-! ## §2. Reading a number. -/

theorem head?_exponent {exponent : List Char} (h : IsExponent exponent)
    (hrest : rest.head?.any Char.isDigit = false) :
    (exponent ++ rest).head?.any Char.isDigit = false := by
  cases h with
  | none => exact hrest
  | mark hmark => obtain rfl | rfl := hmark <;> rfl

theorem head?_fraction {fraction : List Char} (h : IsFraction fraction)
    (hrest : rest.head?.any Char.isDigit = false) :
    (fraction ++ rest).head?.any Char.isDigit = false := by
  cases h with
  | none => exact hrest
  | point => rfl

/-- **A number that nothing continues is read as a whole.** -/
theorem skipNumeral_append {text : List Char} (h : SpellsNumeral text)
    (hrest : rest.head?.any continuesNumeral = false) : skipNumeral (text ++ rest) = .ok rest := by
  obtain @⟨whole, fraction, exponent, hwhole, hfraction, hexponent⟩ := h
  have hstop {c : Char} (hc : continuesNumeral c = true) : rest.head? ≠ some c := by
    intro hhead
    simp [hhead, hc] at hrest
  have hdigit : rest.head?.any Char.isDigit = false := by
    cases hhead : rest.head? with
    | none => rfl
    | some c =>
      have hc : continuesNumeral c = false := by simpa [hhead] using hrest
      simp_all [continuesNumeral]
  have hpoint : (exponent ++ rest).head? ≠ some '.' := by
    cases hexponent with
    | none => exact hstop (by decide)
    | mark hmark => obtain rfl | rfl := hmark <;> simp
  have hdigit' := head?_exponent hexponent hdigit
  obtain ⟨digits, hfraction'⟩ := readFraction_append hfraction hdigit' hpoint
  obtain ⟨n, hexponent'⟩ :=
    readExponent_append hexponent hdigit (hstop (by decide)) (hstop (by decide))
  have hread : readNumeral (whole ++ (fraction ++ (exponent ++ rest)))
      = .ok (⟨whole, digits, n⟩, rest) := by
    simp only [readNumeral, readWhole_append hwhole (head?_fraction hfraction hdigit'),
      hfraction', hexponent', bind, Except.bind, pure, Except.pure]
  rw [List.append_assoc, List.append_assoc, skipNumeral, hread]

end GlslMinifier.Json
