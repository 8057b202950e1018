/-
  GlslMinifier.Proofs.LooseSign — when narrowing keeps the tokens of a line.

  Narrowing keeps every token of a line that is no blank, unless a decimal number that ends
  in an exponent mark has a sign behind a gap: the gap is dropped, and the number goes on
  with the sign.  The first number of this kind is lost for good, because the tokens up to
  it are found again and the one in its place is longer.

  Main results:
    * `visible_narrowTokens` — narrowing touches blanks only
    * `noLooseSign_of_visible_eq` — tokens that are all found again have no loose sign
    * `collapseSpaces_keeps_tokens_iff` — narrowing keeps the tokens just in this case
-/
import GlslMinifier.Proofs.PlainLine

namespace GlslMinifier

/-! ## §1. Visible tokens. -/

/-- The tokens that are no blanks; comments and directives are among them. -/
def Token.visible (ts : List Token) : List Token := ts.filter (·.kind != .whitespace)

theorem visible_blank {t : Token} (h : t.kind = .whitespace) (ts : List Token) :
    Token.visible (t :: ts) = Token.visible ts :=
  List.filter_cons_of_neg (by simp [h])

theorem visible_cons {t : Token} (h : t.kind ≠ .whitespace) (ts : List Token) :
    Token.visible (t :: ts) = t :: Token.visible ts :=
  List.filter_cons_of_pos (by simpa using h)

/-- What is left of a gap is a blank or nothing. -/
theorem visible_gapTokens_append (left? right? : Option Token) (ts : List Token) :
    Token.visible (gapTokens left? right? ++ ts) = Token.visible ts := by
  unfold gapTokens
  split
  · rfl
  · exact visible_blank rfl ts

/-- Narrowing touches blanks only. -/
theorem visible_narrowTokens (left? : Option Token) {ts : List Token}
    (hline : ∀ t ∈ ts, t.kind ≠ .newline) :
    Token.visible (narrowTokens left? ts) = Token.visible ts := by
  induction ts generalizing left? with
  | nil => rfl
  | cons t ts ih =>
    have hlater := ih (some t) fun u hu => hline u (List.mem_cons_of_mem t hu)
    by_cases hgap : t.isGap = true
    · rw [narrowTokens_gap hgap, visible_gapTokens_append, hlater,
        visible_blank (kind_of_isGap hgap (hline t List.mem_cons_self))]
    · have hblank : t.kind ≠ .whitespace := fun hkind => hgap (isGap_iff.2 (.inl hkind))
      rw [narrowTokens_keep (by simpa using hgap), visible_cons hblank, visible_cons hblank,
        hlater]

/-! ## §2. Loose signs. -/

/-- The first token of the list waits for a sign, and finds one behind a gap. -/
def BeginsLoose (ts : List Token) : Prop :=
  ∃ t g u us, ts = t :: g :: u :: us ∧ t.danglesExponent = true ∧ g.isGap = true
    ∧ u.isSign = true

theorem NoLooseSign.cons {t : Token} {ts : List Token} (h : NoLooseSign ts)
    (hfirst : ¬ BeginsLoose (t :: ts)) : NoLooseSign (t :: ts) := by
  intro v g u htriple hdangles hgap
  rcases List.infix_cons_iff.1 htriple with hhead | hlater
  · obtain ⟨us, heq⟩ := hhead
    rw [← Bool.not_eq_true]
    exact fun hsign => hfirst ⟨v, g, u, us, heq.symm, hdangles, hgap, hsign⟩
  · exact h v g u hlater hdangles hgap

variable {lineStart : Bool} {ts : List Token}

theorem Token.number_of_danglesExponent {t : Token} (h : t.danglesExponent = true) :
    t.kind = .number ∧ (t.last? = some 'e' ∨ t.last? = some 'E') := by
  simp only [danglesExponent, Bool.and_eq_true, beq_iff_eq] at h
  obtain ⟨⟨hkind, -⟩, hmark⟩ := h
  obtain ⟨prev, hlast, hprev⟩ := (Option.any_eq_true _ _).1 hmark
  simp only [isExponentMark, Bool.or_eq_true, beq_iff_eq] at hprev
  refine ⟨hkind, ?_⟩
  rcases hprev with rfl | rfl
  · exact .inl hlast
  · exact .inr hlast

/-- An exponent mark fuses with nothing. -/
theorem Token.fuses_of_danglesExponent {t : Token} (h : t.danglesExponent = true) (u : Token) :
    t.fuses u = false := by
  rcases (number_of_danglesExponent h).2 with hlast | hlast
  · simp [fuses, hlast]
  · simp [fuses, hlast]

/-- A sign is one tight character, with which a number that waits for it goes on. -/
theorem Token.absorbs_of_isSign {t u : Token} (hdangles : t.danglesExponent = true)
    (hsign : u.isSign = true) :
    u.isTight = true ∧ ∃ c, u.text.toList = [c] ∧ t.absorbs c = true := by
  have hkind := (number_of_danglesExponent hdangles).1
  simp only [isSign, isPunctuation, Bool.or_eq_true, Bool.and_eq_true, beq_iff_eq] at hsign
  rcases hsign with ⟨hpunct, htext⟩ | ⟨hpunct, htext⟩
  · refine ⟨by simp [isTight, first?, hpunct, htext, tightPunctuation], '+', by simp [htext], ?_⟩
    rw [absorbs_sign hkind (by decide) (by decide), hdangles]
  · refine ⟨by simp [isTight, first?, hpunct, htext, tightPunctuation], '-', by simp [htext], ?_⟩
    rw [absorbs_sign hkind (by decide) (by decide), hdangles]

/-- The gap before a loose sign is dropped, so that the number runs into the sign. -/
theorem spell_narrowTokens_of_beginsLoose (left? : Option Token) (h : BeginsLoose ts) :
    ∃ t c rest, ts.head? = some t ∧ t.kind = .number ∧ t.absorbs c = true
      ∧ (Token.spell (narrowTokens left? ts)).toList = t.text.toList ++ c :: rest := by
  obtain ⟨t, g, u, us, rfl, hdangles, hgap, hsign⟩ := h
  obtain ⟨htight, c, hc, habsorbs⟩ := Token.absorbs_of_isSign hdangles hsign
  have hkind := (Token.number_of_danglesExponent hdangles).1
  have hkeep : t.isGap = false := by simp [Token.isGap, hkind, Kind.isGap]
  have hkeep' : u.isGap = false := by
    simp only [Token.isTight, Bool.and_eq_true, beq_iff_eq] at htight
    simp [Token.isGap, htight.1, Kind.isGap]
  have hdropped : gapTokens (some t) (some u) = [] := by
    simp [gapTokens, gapBetween, htight, Token.fuses_of_danglesExponent hdangles]
  refine ⟨t, c, (Token.spell (narrowTokens (some u) us)).toList, rfl, hkind, habsorbs, ?_⟩
  rw [narrowTokens_keep hkeep, narrowTokens_gap hgap, List.head?_cons, hdropped,
    List.nil_append, narrowTokens_keep hkeep', Token.spell_cons, Token.spell_cons,
    String.toList_append, String.toList_append, hc]
  rfl

/-! ## §3. Tokens that are found again. -/

/-- Where a number goes on with the next character, the lexer does not stop behind it. -/
theorem head?_visible_scan_ne {t : Token} {start : Bool} (h : t.WellShaped start)
    (hkind : t.kind = .number) {c : Char} (habsorbs : t.absorbs c = true) (lineStart : Bool)
    (rest : List Char) :
    (Token.visible (scan lineStart (t.text.toList ++ c :: rest))).head? ≠ some t := by
  unfold Token.WellShaped at h
  rw [hkind] at h
  obtain ⟨d, ds, htext, hfirst, -⟩ := h
  have hwhite : isWhiteSpace d = false := by
    rcases hfirst with hdigit | ⟨rfl, -⟩
    · exact isWhiteSpace_eq_false_of_isWordChar (isWordChar_of_isDigit hdigit)
    · decide
  cases hscan : scan lineStart (t.text.toList ++ c :: rest) with
  | nil => simp [Token.visible]
  | cons v vs =>
    obtain ⟨⟨hv, hnext, hrest⟩, hspell⟩ := scan_eq_iff.1 hscan
    rw [Token.spell_cons, String.toList_append] at hspell
    -- the token begins as the number does, and is no blank
    have hvisible : v.kind ≠ .whitespace := by
      obtain ⟨e, es, he⟩ := hv.exists_cons
      rw [he, htext] at hspell
      obtain ⟨rfl, -⟩ := List.cons.inj hspell
      have hgap := hv.isGap_eq_false (by rw [he]; exact List.mem_cons_self) hwhite
      exact fun hblank => absurd (isGap_iff.2 (.inl hblank)) (by simp [hgap])
    rw [visible_cons hvisible, List.head?_cons]
    intro heq
    -- it is not the number, behind which the lexer would have gone on
    obtain rfl := Option.some.inj heq
    rw [List.append_cancel_left_eq] at hspell
    rw [← hrest.head?_spell, hspell, List.head?_cons, Option.any_some, habsorbs] at hnext
    exact absurd hnext (by decide)

/-- What is left of a gap adds at most a blank to the tokens of what stands behind it. -/
theorem visible_scan_gapTokens (left? right? : Option Token) {rest : List Char}
    (hapart : rest.head?.any isBlank = false) :
    Token.visible (scan lineStart ((Token.spell (gapTokens left? right?)).toList ++ rest))
      = Token.visible (scan lineStart rest) := by
  unfold gapTokens
  split
  · rfl
  · rw [Token.spell_cons, Token.spell_nil, String.append_empty,
      scan_append (Token.space_wellShaped lineStart) hapart]
    exact visible_blank rfl _

/-- If the tokens are found again in the narrowed text, they have no loose sign. -/
theorem noLooseSign_of_visible_eq (h : Cut lineStart none ts) (left? : Option Token)
    (hline : ∀ t ∈ ts, t.kind ≠ .newline)
    (hfound : Token.visible (scan lineStart (Token.spell (narrowTokens left? ts)).toList)
      = Token.visible ts) : NoLooseSign ts := by
  induction ts generalizing lineStart left? with
  | nil => exact noLooseSign_of_forall nofun
  | cons t ts ih =>
    have hlater : ∀ u ∈ ts, u.kind ≠ .newline := fun u hu => hline u (List.mem_cons_of_mem t hu)
    have hheads := head?_spell_narrowTokens h.2.2 (some t)
    by_cases hgap : t.isGap = true
    · -- a gap is dropped or left, and the tokens behind it are found again
      have hkind := kind_of_isGap hgap (hline t List.mem_cons_self)
      have hrest := h.2.2
      rw [hkind] at hrest
      have hapart := h.headChar?_after_gap hkind hlater
      rw [← hheads] at hapart
      rw [visible_blank hkind, narrowTokens_gap hgap, Token.spell_append,
        String.toList_append, visible_scan_gapTokens left? ts.head? hapart] at hfound
      refine (ih hrest (some t) hlater hfound).cons ?_
      rintro ⟨v, g, u, us, heq, hdangles, -⟩
      obtain ⟨rfl, -⟩ := List.cons.inj heq
      exact absurd (Token.number_of_danglesExponent hdangles).1 (by simp [hkind])
    · rw [Bool.not_eq_true] at hgap
      by_cases hloose : BeginsLoose (t :: ts)
      · -- the first number with a loose sign is not found again
        obtain ⟨v, c, rest, hv, hnumber, habsorbs, hspell⟩ :=
          spell_narrowTokens_of_beginsLoose left? hloose
        obtain rfl : t = v := by simpa using hv
        rw [hspell] at hfound
        refine absurd ?_ (head?_visible_scan_ne h.1 hnumber habsorbs lineStart rest)
        rw [hfound, visible_cons (by simp [hnumber]), List.head?_cons]
      · have hnext := h.headChar?_narrowTokens hlater fun hdangles g u us heq hg => by
          rw [← Bool.not_eq_true]
          exact fun hsign => hloose ⟨t, g, u, us, by rw [heq], hdangles, hg, hsign⟩
        rw [← hheads] at hnext
        have hblank : t.kind ≠ .whitespace := fun hkind => by
          rw [isGap_iff.2 (.inl hkind)] at hgap
          exact absurd hgap (by decide)
        rw [narrowTokens_keep hgap, Token.spell_cons, String.toList_append,
          scan_append h.1 hnext, visible_cons hblank, visible_cons hblank] at hfound
        exact (ih h.2.2 (some t) hlater (List.cons.inj hfound).2).cons hloose

/-! ## §4. Lines that keep their tokens. -/

/-- **Narrowing keeps the tokens of a line** that are no blanks, comments and directives
    among them, just when the line has no loose sign.  Two equal signs, with at most blanks
    and comments between them, are then adjacent in the result just when they were adjacent
    in the line. -/
theorem collapseSpaces_keeps_tokens_iff (text : String) (hline : '\n' ∉ text.toList) :
    (Token.visible (tokenize (collapseSpaces text)) = Token.visible (tokenize text)
      ↔ NoLooseSign (tokenize text))
    ∧ (NoLooseSign (tokenize text) → ∀ k, DoubledAt (tokenize text) k →
      (AdjacentAt (tokenize (collapseSpaces text)) k ↔ AdjacentAt (tokenize text) k)) := by
  have hkinds := kind_ne_newline hline
  have hcut := cut_tokenize text
  refine ⟨⟨fun hfound => ?_, fun hsafe => ?_⟩, fun hsafe k hdoubled => ?_⟩
  · rw [collapseSpaces_eq] at hfound
    exact noLooseSign_of_visible_eq hcut none hkinds hfound
  · rw [tokenize_collapseSpaces hkinds hsafe, visible_narrowTokens none hkinds]
  · -- joined signs are the same, and they decide which signs are adjacent
    have hjoined : joinedSigns (tokenize (collapseSpaces text)) = joinedSigns (tokenize text) := by
      rw [tokenize_collapseSpaces hkinds hsafe, joinedSigns_narrowTokens hcut none hkinds]
    have hdoubled' : DoubledAt (tokenize (collapseSpaces text)) k := by
      unfold DoubledAt
      rw [← map_fst_joinedSigns, hjoined, map_fst_joinedSigns]
      exact hdoubled
    rw [adjacentAt_iff hdoubled', adjacentAt_iff hdoubled, hjoined]

/-- The exponent mark meets a semicolon here, and the two signs stay apart. -/
theorem collapseSpaces_keeps_tokens_iff_dangling :
    '\n' ∉ "1e ; + +y".toList ∧ NoLooseSign (tokenize "1e ; + +y")
      ∧ DoubledAt (tokenize "1e ; + +y") 2
      ∧ ¬ AdjacentAt (tokenize (collapseSpaces "1e ; + +y")) 2 := by
  have hline : '\n' ∉ "1e ; + +y".toList := by decide
  have hdoubled : DoubledAt (tokenize "1e ; + +y") 2 :=
    ⟨⟨.punctuation, "+"⟩, ⟨.punctuation, "+"⟩, by decide +kernel, by decide +kernel, rfl⟩
  obtain ⟨hkeeps, hsigns⟩ := collapseSpaces_keeps_tokens_iff "1e ; + +y" hline
  have hsafe := hkeeps.1 (by decide +kernel)
  refine ⟨hline, hsafe, hdoubled, ?_⟩
  rw [hsigns hsafe 2 hdoubled, adjacentAt_iff hdoubled]
  decide +kernel

/-- A loose sign: the number takes it in. -/
example : Token.visible (tokenize (collapseSpaces "1e + 2")) = [⟨.number, "1e+2"⟩] := by
  decide +kernel

end GlslMinifier
