/-
  GlslMinifier.Proofs.Json.Quoted — reading and writing the spellings of a string.

  Between its quotes a string can be spelled in many ways: a character stands for itself,
  or is escaped by a mark, by one code unit or by a pair of them.  The reader undoes every
  spelling, so it also undoes the one that the writer chooses.

  Main results:
    * `readQuoted_spelling` — reading a spelling up to its closing quote
    * `spelling_escape` — what is written for a string is a spelling of it
-/
import GlslMinifier.Json.Quoted

namespace GlslMinifier.Json

variable {paired : Bool}

/-! ## §1. Spellings. -/

/-- Characters that stand for themselves. -/
theorem spelling_self {s : List Char}
    (h : ∀ c ∈ s, c ≠ '"' ∧ c ≠ '\\' ∧ 0x20 ≤ c.toNat) : Spelling paired s s := by
  induction s with
  | nil => exact .nil
  | cons c s ih =>
    obtain ⟨hquote, hslash, hc⟩ := h c List.mem_cons_self
    exact .plain hquote hslash hc (ih fun d hd => h d (List.mem_cons_of_mem _ hd))

/-! ## §2. Reading one character. -/

theorem readHex_hexUnit {n : Nat} {digits rest : List Char} (h : HexUnit n digits) :
    readHex (digits ++ rest) = .ok (n, rest) := by
  cases h with
  | digits ha hb hc hd => simp [readHex, ha, hb, hc, hd]

theorem readUnits_single {n : Nat} {digits rest : List Char} (h : HexUnit n digits)
    (hunit : paired = true → isLeading n = false ∧ isTrailing n = false) :
    readUnits paired (digits ++ rest) = .ok (Char.ofNat n, rest) := by
  have hleading : (paired && isLeading n) = false := by
    cases paired with
    | false => rfl
    | true => exact (hunit rfl).1
  have htrailing : (paired && isTrailing n) = false := by
    cases paired with
    | false => rfl
    | true => exact (hunit rfl).2
  simp [readUnits, readHex_hexUnit h, bind, Except.bind, hleading, htrailing]

theorem isTrailing_of_isLeading {n : Nat} (h : isLeading n = true) : isTrailing n = false := by
  simp only [isLeading, Bool.and_eq_true, decide_eq_true_eq] at h
  simp only [isTrailing, Bool.and_eq_false_iff, decide_eq_false_iff_not]
  omega

theorem readUnits_pair {m n : Nat} {leading trailing rest : List Char} (hm : HexUnit m leading)
    (hleading : isLeading m = true) (hn : HexUnit n trailing) (htrailing : isTrailing n = true) :
    readUnits true (leading ++ '\\' :: 'u' :: (trailing ++ rest)) = .ok (ofPair m n, rest) := by
  have hsecond : readSecondUnit m ('\\' :: 'u' :: (trailing ++ rest)) = .ok (ofPair m n, rest) := by
    simp [readSecondUnit, expect, readHex_hexUnit hn, bind, Except.bind, htrailing]
  simp [readUnits, readHex_hexUnit hm, bind, Except.bind, hleading,
    isTrailing_of_isLeading hleading, hsecond]

theorem readEscape_short {mark c : Char} {rest : List Char} (h : (mark, c) ∈ shortEscapes) :
    readEscape paired (mark :: rest) = .ok (c, rest) := by
  have hall : ∀ entry ∈ shortEscapes,
      entry.1 ≠ 'u' ∧ shortEscapes.lookup entry.1 = some entry.2 := by decide
  obtain ⟨hmark, hlookup⟩ := hall _ h
  simp only at hmark hlookup
  simp only [readEscape, hlookup]

theorem readQuoted_escape {c : Char} {cs rest : List Char}
    (h : readEscape paired cs = .ok (c, rest)) :
    readQuoted paired ('\\' :: cs)
      = (readQuoted paired rest).map fun found => (c :: found.1, found.2) := by
  rw [readQuoted]
  split
  · next e he => cases h.symm.trans he
  · next c' rest' he =>
    cases h.symm.trans he
    rfl

theorem readQuoted_plain {c : Char} {cs : List Char} (hquote : c ≠ '"') (hslash : c ≠ '\\')
    (hc : 0x20 ≤ c.toNat) :
    readQuoted paired (c :: cs)
      = (readQuoted paired cs).map fun found => (c :: found.1, found.2) := by
  rw [readQuoted]
  · rw [if_neg (by omega)]
  · exact hquote
  · exact hslash

/-! ## §3. Reading a spelling. -/

theorem readQuoted_spelling {s text : List Char} (h : Spelling paired s text)
    (rest : List Char) : readQuoted paired (text ++ '"' :: rest) = .ok (s, rest) := by
  induction h with
  | nil => rw [List.nil_append, readQuoted]
  | plain hquote hslash hc _ ih =>
    rw [List.cons_append, readQuoted_plain hquote hslash hc, ih]
    rfl
  | short hmark _ ih =>
    rw [List.cons_append, List.cons_append, readQuoted_escape (readEscape_short hmark), ih]
    rfl
  | @unit n digits s text hdigits hunit _ ih =>
    have hread : readEscape paired ('u' :: (digits ++ (text ++ '"' :: rest)))
        = .ok (Char.ofNat n, text ++ '"' :: rest) := readUnits_single hdigits hunit
    rw [List.cons_append, List.cons_append, List.append_assoc, readQuoted_escape hread, ih]
    rfl
  | @pair m n leading trailing s text hpaired hm hleading hn htrailing _ ih =>
    subst hpaired
    have hread : readEscape true
        ('u' :: (leading ++ '\\' :: 'u' :: (trailing ++ (text ++ '"' :: rest))))
        = .ok (ofPair m n, text ++ '"' :: rest) := readUnits_pair hm hleading hn htrailing
    have happend : '\\' :: 'u' :: (leading ++ '\\' :: 'u' :: (trailing ++ text)) ++ '"' :: rest
        = '\\' :: 'u' :: (leading ++ '\\' :: 'u' :: (trailing ++ (text ++ '"' :: rest))) := by
      simp
    rw [happend, readQuoted_escape hread, ih]
    rfl

/-! ## §4. Writing. -/

theorem hexValue?_hexDigit : ∀ n < 16, hexValue? (hexDigit n) = some n := by decide

/-- A control character is written as a code unit below 32. -/
theorem hexUnit_control {c : Char} (hc : c.toNat < 0x20) :
    HexUnit c.toNat ['0', '0', hexDigit (c.toNat / 16), hexDigit (c.toNat % 16)] := by
  have hzero : hexValue? '0' = some 0 := by decide
  have hunit := HexUnit.digits hzero hzero (hexValue?_hexDigit (c.toNat / 16) (by omega))
    (hexValue?_hexDigit (c.toNat % 16) (by omega))
  have hvalue : ((0 * 16 + 0) * 16 + c.toNat / 16) * 16 + c.toNat % 16 = c.toNat := by omega
  rwa [hvalue] at hunit

theorem spelling_escape_cons (c : Char) {s text : List Char} (h : Spelling true s text) :
    Spelling true (c :: s) (escape c ++ text) := by
  have hshort {d mark : Char} (hc : (c == d) = true) (hmark : (mark, d) ∈ shortEscapes) :
      Spelling true (c :: s) (['\\', mark] ++ text) := by
    rw [eq_of_beq hc]
    exact .short hmark h
  unfold escape
  iterate 7
    split
    · next hc => exact hshort hc (by decide)
  next hquote hslash _ _ _ _ _ =>
  split
  · next hcontrol =>
    have hunit := Spelling.unit (hexUnit_control hcontrol)
      (fun _ => by
        constructor
        · simp only [isLeading, Bool.and_eq_false_iff, decide_eq_false_iff_not]
          omega
        · simp only [isTrailing, Bool.and_eq_false_iff, decide_eq_false_iff_not]
          omega) h
    rwa [Char.ofNat_toNat] at hunit
  · next hcontrol => exact .plain (by simpa using hquote) (by simpa using hslash) (by omega) h

/-- Every string has a spelling, and the writer finds one. -/
theorem spelling_escape (s : List Char) : Spelling true s (s.flatMap escape) := by
  induction s with
  | nil => exact .nil
  | cons c s ih => exact spelling_escape_cons c ih

end GlslMinifier.Json
