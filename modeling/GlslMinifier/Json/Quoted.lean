/-
  GlslMinifier.Json.Quoted — JSON strings.

  `quote` writes a string and `readQuoted` reads one.  A character beyond the first plane
  may be written as two code units; a text that is only passed over need not pair them.
-/
import GlslMinifier.Json.Basic

namespace GlslMinifier.Json

/-! ## §1. Writing. -/

/-- Hexadecimal digit of a number below sixteen, in lower case. -/
def hexDigit (n : Nat) : Char := if n < 10 then Char.ofNat (48 + n) else Char.ofNat (87 + n)

/-- A character as it is written inside quotes. -/
def escape (c : Char) : List Char :=
  if c == '"' then ['\\', '"']
  else if c == '\\' then ['\\', '\\']
  else if c == '\x08' then ['\\', 'b']
  else if c == '\x0c' then ['\\', 'f']
  else if c == '\n' then ['\\', 'n']
  else if c == '\r' then ['\\', 'r']
  else if c == '\t' then ['\\', 't']
  else if c.toNat < 0x20 then
    ['\\', 'u', '0', '0', hexDigit (c.toNat / 16), hexDigit (c.toNat % 16)]
  else [c]

/-- A string in quotes. -/
def quote (s : String) : String := String.ofList ('"' :: s.toList.flatMap escape ++ ['"'])

/-! ## §2. Reading escapes. -/

/-- Reads four hexadecimal digits.  A text with less than four bytes left is truncated. -/
def readHex : List Char → Except Fault (Found Nat)
  | a :: b :: c :: d :: rest =>
    match hexValue? a, hexValue? b, hexValue? c, hexValue? d with
    | some a, some b, some c, some d => .ok (((a * 16 + b) * 16 + c) * 16 + d, rest)
    | _, _, _, _ => .error .malformed
  | few => .error (if (String.ofList few).utf8ByteSize < 4 then .truncated else .malformed)

/-- Reads the second code unit of a pair, with its backslash and `u`. -/
def readSecondUnit (leading : Nat) (cs : List Char) : Except Fault (Found Char) := do
  let (unit, rest) ← readHex (← expect ['\\', 'u'] cs)
  if isTrailing unit then .ok (ofPair leading unit, rest) else .error .malformed

/-- Reads the code units of one character, of which the first stands at the front without
    its backslash and `u`.  If `paired` is false, every unit counts as a character. -/
def readUnits (paired : Bool) (cs : List Char) : Except Fault (Found Char) := do
  let (unit, rest) ← readHex cs
  if paired && isTrailing unit then .error .malformed
  else if paired && isLeading unit then readSecondUnit unit rest
  else .ok (Char.ofNat unit, rest)

/-- Reads what stands after a backslash. -/
def readEscape (paired : Bool) : List Char → Except Fault (Found Char)
  | [] => .error .truncated
  | 'u' :: cs => readUnits paired cs
  | c :: cs =>
    match shortEscapes.lookup c with
    | some meant => .ok (meant, cs)
    | none => .error .malformed

theorem readHex_length {cs rest : List Char} {n : Nat} (h : readHex cs = .ok (n, rest)) :
    rest.length + 4 = cs.length := by
  fun_cases readHex cs <;> simp_all [readHex]

theorem readSecondUnit_length {leading : Nat} {cs rest : List Char} {c : Char}
    (h : readSecondUnit leading cs = .ok (c, rest)) : rest.length < cs.length := by
  simp only [readSecondUnit, bind_eq_ok, Prod.exists] at h
  obtain ⟨mid, hexpect, unit, last, hhex, h⟩ := h
  have hmid := expect_length_le hexpect
  have hlast := readHex_length hhex
  split at h <;> simp at h
  obtain ⟨_, rfl⟩ := h
  omega

theorem readUnits_length {paired : Bool} {cs rest : List Char} {c : Char}
    (h : readUnits paired cs = .ok (c, rest)) : rest.length < cs.length := by
  simp only [readUnits, bind_eq_ok, Prod.exists] at h
  obtain ⟨unit, mid, hhex, h⟩ := h
  have hmid := readHex_length hhex
  split at h
  · simp at h
  · split at h
    · have := readSecondUnit_length h
      omega
    · simp at h
      obtain ⟨_, rfl⟩ := h
      omega

theorem readEscape_length {paired : Bool} {cs rest : List Char} {c : Char}
    (h : readEscape paired cs = .ok (c, rest)) : rest.length < cs.length := by
  fun_cases readEscape paired cs with
  | case1 => simp [readEscape] at h
  | case2 cs =>
    have := readUnits_length (by simpa only [readEscape] using h)
    simp only [List.length_cons]
    omega
  | case3 c cs hc meant hmeant =>
    simp only [readEscape, hmeant, Except.ok.injEq, Prod.mk.injEq] at h
    simp [h.2]
  | case4 c cs hc hnone => simp only [readEscape, hnone, reduceCtorEq] at h

/-! ## §3. Reading strings. -/

/-- Reads a string whose opening quote has been read.  If `paired` is false, code units
    need not pair, which is enough to pass over a string. -/
def readQuoted (paired : Bool) : List Char → Except Fault (Found (List Char))
  | [] => .error .truncated
  | '"' :: cs => .ok ([], cs)
  | '\\' :: cs =>
    match _h : readEscape paired cs with
    | .error e => .error e
    | .ok (c, rest) => (readQuoted paired rest).map fun found => (c :: found.1, found.2)
  | c :: cs =>
    if c.toNat < 0x20 then .error .malformed
    else (readQuoted paired cs).map fun found => (c :: found.1, found.2)
termination_by cs => cs.length
decreasing_by
  · have := readEscape_length _h
    simp only [List.length_cons]
    omega
  · simp

theorem map_eq_ok {α β : Type} {x : Except Fault α} {f : α → β} {b : β} :
    x.map f = .ok b ↔ ∃ a, x = .ok a ∧ f a = b := by
  cases x <;> simp [Except.map]

theorem readQuoted_length {paired : Bool} {cs s rest : List Char}
    (h : readQuoted paired cs = .ok (s, rest)) : rest.length < cs.length := by
  fun_induction readQuoted paired cs generalizing s rest with
  | case1 => cases h
  | case2 cs =>
    cases h
    simp
  | case3 => cases h
  | case4 cs c mid hescape ih =>
    simp only [map_eq_ok, Prod.exists] at h
    obtain ⟨s', rest', h, heq⟩ := h
    cases heq
    have := ih h
    have := readEscape_length hescape
    simp only [List.length_cons]
    omega
  | case5 => cases h
  | case6 c cs _ _ _ ih =>
    simp only [map_eq_ok, Prod.exists] at h
    obtain ⟨s', rest', h, heq⟩ := h
    cases heq
    have := ih h
    simp only [List.length_cons]
    omega

end GlslMinifier.Json
