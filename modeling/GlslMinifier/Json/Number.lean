/-
  GlslMinifier.Json.Number — JSON numbers.

  No number is ever asked for, so a number is only checked: by its grammar alone where
  any value may stand, and where another type of value is asked for also by its size,
  since a number too large for double precision is refused as malformed.
-/
import GlslMinifier.Json.Basic
import GlslMinifier.Text.Run

namespace GlslMinifier.Json

/-! ## §1. Grammar. -/

/-- A number without its sign. -/
structure Numeral where
  whole : List Char
  fraction : List Char
  exponent : Int
  deriving DecidableEq, Repr

/-- Reads one or more digits. -/
def readDigits (cs : List Char) : Except Fault (Found (List Char)) :=
  if (splitRun Char.isDigit cs).1 = [] then .error (unexpected cs)
  else .ok (splitRun Char.isDigit cs)

/-- Reads the whole part, which has no leading zero unless it is zero. -/
def readWhole (cs : List Char) : Except Fault (Found (List Char)) := do
  let (digits, rest) ← readDigits cs
  if digits.head? = some '0' ∧ 1 < digits.length then .error .malformed
  else .ok (digits, rest)

/-- Reads the part after a decimal point, if there is one. -/
def readFraction : List Char → Except Fault (Found (List Char))
  | '.' :: cs => readDigits cs
  | cs => .ok ([], cs)

/-- Number written by a list of decimal digits. -/
def valueOfDigits (digits : List Char) : Nat :=
  digits.foldl (fun n d => n * 10 + (d.toNat - 48)) 0

/-- The text after an optional sign. -/
def dropSign : List Char → List Char
  | '+' :: cs => cs
  | '-' :: cs => cs
  | cs => cs

/-- Reads the digits of an exponent with an optional sign. -/
def readSigned (cs : List Char) : Except Fault (Found Int) := do
  let (digits, rest) ← readDigits (dropSign cs)
  let size : Int := valueOfDigits digits
  .ok (if cs.head? = some '-' then -size else size, rest)

/-- Reads an exponent, if there is one. -/
def readExponent : List Char → Except Fault (Found Int)
  | 'e' :: cs => readSigned cs
  | 'E' :: cs => readSigned cs
  | cs => .ok (0, cs)

/-- Reads a number without its sign. -/
def readNumeral (cs : List Char) : Except Fault (Found Numeral) := do
  let (whole, rest) ← readWhole cs
  let (fraction, rest) ← readFraction rest
  let (exponent, rest) ← readExponent rest
  return (⟨whole, fraction, exponent⟩, rest)

/-- Reads past a number without its sign.  Every fault counts as malformed. -/
def skipNumeral (cs : List Char) : Except Fault (List Char) :=
  match readNumeral cs with
  | .ok (_, rest) => .ok rest
  | .error _ => .error .malformed

/-! ## §2. Range. -/

/-- The nearest number with 53 significant bits; a tie goes to the even one. -/
def roundToDouble (n : Nat) : Nat :=
  let unit := Nat.pow 2 (n.log2 + 1 - 53)
  let below := n / unit
  let twiceRest := 2 * (n % unit)
  if unit < twiceRest ∨ (twiceRest = unit ∧ below % 2 = 1) then (below + 1) * unit
  else below * unit

/-- Appends digits to `n` as long as it stays below 2^64; the result and the digits left. -/
def appendDigits (n : Nat) : List Char → Nat × List Char
  | [] => (n, [])
  | d :: ds =>
    let next := n * 10 + (d.toNat - 48)
    if next < 2 ^ 64 then appendDigits next ds else (n, d :: ds)

/-- Whether a number is too large for double precision.  Its significand is cut to 64
    bits; whole digits left over count for the exponent, further ones for nothing. -/
def Numeral.overflows (x : Numeral) : Bool :=
  let whole := appendDigits 0 x.whole
  let all := appendDigits whole.1 x.fraction
  let exponent : Int := whole.2.length - (x.fraction.length - all.2.length) + x.exponent
  all.1 != 0 && (308 < exponent ||
    (0 ≤ exponent &&
      Nat.pow 2 1024 - Nat.pow 2 970
        ≤ roundToDouble all.1 * roundToDouble (Nat.pow 10 exponent.toNat)))

/-- The fault of a number, without its sign, where another type of value is asked for. -/
def misplacedNumeral (cs : List Char) : Fault :=
  match readNumeral cs with
  | .error e => e
  | .ok (x, _) => if x.overflows then .malformed else .mistyped

/-! ## §3. Readers take something. -/

theorem readDigits_length {cs digits rest : List Char}
    (h : readDigits cs = .ok (digits, rest)) : rest.length < cs.length := by
  simp only [readDigits] at h
  split at h
  · cases h
  · next hne =>
    have hsplit := splitRun_length Char.isDigit cs
    have hpos := List.length_pos_iff.2 hne
    rw [Except.ok.inj h] at hsplit hpos
    simp only at hsplit hpos
    omega

theorem readWhole_length {cs digits rest : List Char}
    (h : readWhole cs = .ok (digits, rest)) : rest.length < cs.length := by
  simp only [readWhole, bind_eq_ok, Prod.exists] at h
  obtain ⟨digits', rest', hdigits, h⟩ := h
  split at h
  · cases h
  · cases h
    exact readDigits_length hdigits

theorem readFraction_length_le {cs digits rest : List Char}
    (h : readFraction cs = .ok (digits, rest)) : rest.length ≤ cs.length := by
  fun_cases readFraction cs with
  | case1 cs =>
    have := readDigits_length (by simpa [readFraction] using h)
    simp only [List.length_cons]
    omega
  | case2 cs hne => simp_all [readFraction]

theorem dropSign_length_le (cs : List Char) : (dropSign cs).length ≤ cs.length := by
  fun_cases dropSign cs <;> simp

theorem readSigned_length_le {cs rest : List Char} {n : Int}
    (h : readSigned cs = .ok (n, rest)) : rest.length ≤ cs.length := by
  simp only [readSigned, bind_eq_ok, Prod.exists] at h
  obtain ⟨digits, rest', hdigits, h⟩ := h
  cases h
  have := readDigits_length hdigits
  have := dropSign_length_le cs
  omega

theorem readExponent_length_le {cs rest : List Char} {n : Int}
    (h : readExponent cs = .ok (n, rest)) : rest.length ≤ cs.length := by
  fun_cases readExponent cs with
  | case1 cs =>
    have := readSigned_length_le (by simpa [readExponent] using h)
    simp only [List.length_cons]
    omega
  | case2 cs =>
    have := readSigned_length_le (by simpa [readExponent] using h)
    simp only [List.length_cons]
    omega
  | case3 cs _ _ => simp_all [readExponent]

theorem readNumeral_length {cs rest : List Char} {x : Numeral}
    (h : readNumeral cs = .ok (x, rest)) : rest.length < cs.length := by
  simp only [readNumeral, bind_eq_ok, Prod.exists] at h
  obtain ⟨whole, rest₁, hwhole, fraction, rest₂, hfraction, exponent, rest₃, hexponent, h⟩ := h
  cases h
  have := readWhole_length hwhole
  have := readFraction_length_le hfraction
  have := readExponent_length_le hexponent
  omega

theorem skipNumeral_length {cs rest : List Char} (h : skipNumeral cs = .ok rest) :
    rest.length < cs.length := by
  simp only [skipNumeral] at h
  split at h
  · next x rest' hread =>
    cases h
    exact readNumeral_length hread
  · cases h

end GlslMinifier.Json
