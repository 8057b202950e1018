/-
  GlslMinifier.Proofs.NormalSpacing — the white space of a narrowed line.

  Narrowing a line leaves blanks that are needed, and no others: each is one space between
  two tokens that would fuse, or of which none is tight.  This is said of the tokens that
  the lexer finds in the result, not of those it found before: a number may have taken in
  a sign by then, so that a blank has another token before it.

  Main results:
    * `Settled.neededSpace` — blanks of settled tokens are needed
    * `settled_collapseSpaces` — what the lexer finds in a narrowed line is settled
    * `collapseSpaces_settles` — a narrowed line has needed blanks only, and narrowing it
      again gives it back
-/
import GlslMinifier.Proofs.Compaction.Settled

namespace GlslMinifier

/-! ## §1. Needed blanks. -/

/-- In the list, `t` stands between `left?` and `right?`, which are absent at its ends. -/
def StandsBetween (ts : List Token) (left? : Option Token) (t : Token) (right? : Option Token) :
    Prop :=
  ∃ before after, ts = before ++ t :: after ∧ before.getLast? = left? ∧ after.head? = right?

/-- A blank that cannot be dropped or shortened where it stands. -/
structure NeededSpace (left? : Option Token) (t : Token) (right? : Option Token) : Prop where
  single : t.text = " "
  inside : ∃ left right, left? = some left ∧ right? = some right
    ∧ (left.isTight = true ∨ right.isTight = true → left.fuses right = true)

/-- At an end of the text nothing is left of a gap. -/
theorem exists_of_gapBetween_eq_space {left? right? : Option Token}
    (h : gapBetween left? right? = " ") :
    ∃ left right, left? = some left ∧ right? = some right
      ∧ (left.isTight = true ∨ right.isTight = true → left.fuses right = true) := by
  cases left? with
  | none => simp [gapBetween] at h
  | some left =>
    cases right? with
    | none => simp [gapBetween] at h
    | some right =>
      have hkept := gapBetween_eq_space_iff.1 h
      rw [Bool.or_eq_true] at hkept
      exact ⟨left, right, rfl, rfl, hkept⟩

theorem Settled.gap_eq {left? : Option Token} {before after : List Token} {t : Token}
    (h : Settled left? (before ++ t :: after)) (hgap : t.isGap = true) :
    t = Token.space ∧ gapBetween (before.getLast?.or left?) after.head? = " " := by
  -- the token before the list matters only while nothing else stands before `t`
  induction before generalizing left? with
  | nil => exact h.1 hgap
  | cons u before ih =>
    have hlast : (u :: before).getLast?.or left? = before.getLast?.or (some u) := by
      rw [List.getLast?_cons]
      cases before.getLast? <;> rfl
    rw [hlast]
    exact ih h.2

/-- **Blanks of settled tokens are needed.** -/
theorem Settled.neededSpace {ts : List Token} (h : Settled none ts)
    {left? right? : Option Token} {t : Token} (hstands : StandsBetween ts left? t right?)
    (hkind : t.kind = .whitespace) : NeededSpace left? t right? := by
  obtain ⟨before, after, rfl, rfl, rfl⟩ := hstands
  obtain ⟨rfl, hkept⟩ := h.gap_eq (isGap_iff.2 (.inl hkind))
  rw [Option.or_none] at hkept
  exact ⟨rfl, exists_of_gapBetween_eq_space hkept⟩

/-! ## §2. Narrowed lines. -/

/-- **What the lexer finds in a narrowed line is settled**, comments and directives or no. -/
theorem settled_collapseSpaces {text : String} (hline : '\n' ∉ text.toList) :
    Settled none (tokenize (collapseSpaces text)) := by
  obtain ⟨us, hus⟩ := (cut_tokenize text).exists_relexed none (kind_ne_newline hline)
  have htokens := hus.cut.tokenize_spell
  rw [hus.spell_eq, ← collapseSpaces_eq] at htokens
  rw [htokens]
  exact hus.settled

/-- **Narrowing reaches a normal form in one pass**: in a narrowed line every blank is one
    space between two tokens that would fuse or of which none is tight, and narrowing the
    line again changes nothing. -/
theorem collapseSpaces_settles (text : String) (hline : '\n' ∉ text.toList) :
    (∀ left? t right?, StandsBetween (tokenize (collapseSpaces text)) left? t right? →
      t.kind = .whitespace → NeededSpace left? t right?)
    ∧ collapseSpaces (collapseSpaces text) = collapseSpaces text := by
  have hsettled := settled_collapseSpaces hline
  constructor
  · intro left? t right? hstands hkind
    exact hsettled.neededSpace hstands hkind
  · rw [collapseSpaces_eq (collapseSpaces text), hsettled.narrowTokens_eq, spell_tokenize]

/-- The number takes in the first sign here, and the space before the second one is still
    needed: the number now ends in a sign. -/
theorem collapseSpaces_settles_joined :
    '\n' ∉ "1e + +x".toList
      ∧ StandsBetween (tokenize (collapseSpaces "1e + +x")) (some ⟨.number, "1e+"⟩)
        Token.space (some ⟨.punctuation, "+"⟩)
      ∧ NeededSpace (some ⟨.number, "1e+"⟩) Token.space (some ⟨.punctuation, "+"⟩)
      ∧ collapseSpaces (collapseSpaces "1e + +x") = collapseSpaces "1e + +x" := by
  have hline : '\n' ∉ "1e + +x".toList := by decide
  have hstands : StandsBetween (tokenize (collapseSpaces "1e + +x")) (some ⟨.number, "1e+"⟩)
      Token.space (some ⟨.punctuation, "+"⟩) :=
    ⟨[⟨.number, "1e+"⟩], [⟨.punctuation, "+"⟩, ⟨.identifier, "x"⟩], by decide +kernel, rfl, rfl⟩
  obtain ⟨hneeded, hagain⟩ := collapseSpaces_settles "1e + +x" hline
  exact ⟨hline, hstands, hneeded _ _ _ hstands rfl, hagain⟩

end GlslMinifier
