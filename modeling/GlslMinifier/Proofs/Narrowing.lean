/-
  GlslMinifier.Proofs.Narrowing — dropping white space between tokens.

  Narrowing a text is an operation on its tokens (`narrowTokens`): a gap goes, or becomes
  one space, and every other token stays.  The lexer finds these very tokens in the
  narrowed text, because where a gap was dropped its two neighbours do not continue each
  other.  The one exception is a decimal number that ends in an exponent mark, which
  would go on with the sign after the gap.

  Main results:
    * `spell_narrowTokens` — narrowing tokens spells the narrowed text
    * `absorbs_eq_false_of_dropped` — tokens that meet in place of a gap stay apart
    * `Cut.narrowTokens`, `tokenize_collapseSpaces` — what the lexer finds afterwards
    * `joinedSigns_narrowTokens` — doubled signs stay doubled, and no others arise
-/
import GlslMinifier.Proofs.Segmentation
import GlslMinifier.Spacing

namespace GlslMinifier

/-! ## §1. Narrowed tokens. -/

/-- The space that may be left of a gap. -/
def Token.space : Token := ⟨.whitespace, " "⟩

/-- What is left of a gap between two tokens, as a token if there is anything left. -/
def gapTokens (left? right? : Option Token) : List Token :=
  if gapBetween left? right? = "" then [] else [Token.space]

/-- The tokens of a narrowed text, `left?` being the token before them. -/
def narrowTokens (left? : Option Token) : List Token → List Token
  | [] => []
  | t :: ts => (if t.isGap then gapTokens left? ts.head? else [t]) ++ narrowTokens (some t) ts

theorem gapBetween_cases (left? right? : Option Token) :
    gapBetween left? right? = "" ∨ gapBetween left? right? = " " := by
  unfold gapBetween
  split
  next left right => cases (left.isTight || right.isTight) && !left.fuses right <;> simp
  next => exact .inl rfl

theorem spell_gapTokens (left? right? : Option Token) :
    Token.spell (gapTokens left? right?) = gapBetween left? right? := by
  unfold gapTokens
  rcases gapBetween_cases left? right? with h | h
  · rw [h]
    rfl
  · rw [h]
    rfl

/-- Narrowing tokens spells the narrowed text. -/
theorem spell_narrowTokens (left? : Option Token) (ts : List Token) :
    Token.spell (narrowTokens left? ts) = String.join (narrow left? ts) := by
  induction ts generalizing left? with
  | nil => rfl
  | cons t ts ih =>
    rw [narrowTokens, narrow, Token.spell_append, ih, String.join_cons]
    by_cases hgap : t.isGap = true
    · rw [if_pos hgap, if_pos hgap, spell_gapTokens]
    · rw [if_neg hgap, if_neg hgap, Token.spell_cons, Token.spell_nil, String.append_empty]

theorem collapseSpaces_eq (text : String) :
    collapseSpaces text = Token.spell (narrowTokens none (tokenize text)) :=
  (spell_narrowTokens none (tokenize text)).symm

theorem narrowTokens_gap {left? : Option Token} {t : Token} {ts : List Token}
    (h : t.isGap = true) :
    narrowTokens left? (t :: ts) = gapTokens left? ts.head? ++ narrowTokens (some t) ts := by
  rw [narrowTokens, if_pos h]

theorem narrowTokens_keep {left? : Option Token} {t : Token} {ts : List Token}
    (h : t.isGap = false) : narrowTokens left? (t :: ts) = t :: narrowTokens (some t) ts := by
  rw [narrowTokens, if_neg (by simp [h])]
  rfl

theorem isGap_iff {t : Token} : t.isGap = true ↔ t.kind = .whitespace ∨ t.kind = .newline := by
  unfold Token.isGap
  cases t.kind <;> decide

theorem kind_of_isGap {t : Token} (hgap : t.isGap = true) (hline : t.kind ≠ .newline) :
    t.kind = .whitespace :=
  (isGap_iff.1 hgap).resolve_right hline

/-! ## §2. Tokens that meet. -/

namespace Token

/-- A decimal number that ends in an exponent mark, so that a sign would continue it. -/
def danglesExponent (t : Token) : Bool :=
  t.kind == .number && !spellsHex t.text.toList && t.last?.any isExponentMark

def isSign (t : Token) : Bool := t.isPunctuation "+" || t.isPunctuation "-"

/-- Only white space, directives and comments may go on with a space. -/
theorem absorbs_space_of_ne {t : Token} (hblank : t.kind ≠ .whitespace)
    (hdirective : t.kind ≠ .directive) (hcomment : t.kind ≠ .comment) :
    t.absorbs ' ' = false := by
  unfold absorbs
  cases hkind : t.kind with
  | whitespace => exact absurd hkind hblank
  | directive => exact absurd hkind hdirective
  | comment => exact absurd hkind hcomment
  | newline | identifier => rfl
  | number => exact Kind.absorbs_number_of_plain (by decide) (by decide) _
  | punctuation =>
    have hdigit : Char.isDigit ' ' = false := by decide
    simp [Kind.absorbs, hdigit]

/-- A token that ends before one blank ends before another as well. -/
theorem absorbs_space {t : Token} {c : Char} (hc : isBlank c = true)
    (h : t.absorbs c = false) : t.absorbs ' ' = false := by
  have hline : c ≠ '\n' := by
    intro heq
    subst heq
    exact absurd hc (by decide)
  cases hkind : t.kind with
  | whitespace => simp [absorbs, hkind, Kind.absorbs, hc] at h
  | directive => simp [absorbs, hkind, Kind.absorbs, hline] at h
  | comment =>
    -- a comment that ends inside a line has found its closing mark
    unfold absorbs at h ⊢
    rw [hkind] at h ⊢
    exact commentAbsorbs_of_ne hline h ' '
  | newline | identifier | number | punctuation =>
    exact absorbs_space_of_ne (by simp [hkind]) (by simp [hkind]) (by simp [hkind])

theorem space_wellShaped (lineStart : Bool) : space.WellShaped lineStart := by
  show [' '] ≠ [] ∧ ∀ c ∈ [' '], isBlank c = true
  refine ⟨List.cons_ne_nil _ _, fun c hc => ?_⟩
  obtain rfl : c = ' ' := List.mem_singleton.1 hc
  rfl

theorem WellShaped.first?_of_whitespace {t : Token} {lineStart : Bool}
    (h : t.WellShaped lineStart) (hkind : t.kind = .whitespace) :
    ∃ c, t.first? = some c ∧ isBlank c = true := by
  unfold WellShaped at h
  rw [hkind] at h
  obtain ⟨c, cs, hc⟩ := List.exists_cons_of_ne_nil h.1
  exact ⟨c, by simp [first?, hc], h.2 c (by simp [hc])⟩

/-- Tight punctuation has no other role in the lexer. -/
theorem tightPunctuation_plain {c : Char} (hc : c ∈ tightPunctuation) :
    isWordChar c = false ∧ isNumberChar c = false ∧ c.isDigit = false ∧ isBlank c = false := by
  have hall : tightPunctuation.all (fun d => !isWordChar d && !isNumberChar d && !d.isDigit
      && !isBlank d) = true := by decide
  simpa [and_assoc] using List.all_eq_true.1 hall c hc

/-- Tight punctuation is one character of the list. -/
theorem WellShaped.text_of_isTight {t : Token} {lineStart : Bool} (h : t.WellShaped lineStart)
    (htight : t.isTight = true) :
    t.kind = .punctuation ∧ ∃ c ∈ tightPunctuation, t.text.toList = [c] := by
  simp only [isTight, Bool.and_eq_true, beq_iff_eq] at htight
  obtain ⟨hkind, hfirst⟩ := htight
  unfold WellShaped at h
  rw [hkind] at h
  obtain ⟨c, hc, -⟩ := h
  refine ⟨hkind, c, ?_, hc⟩
  simpa [first?, hc] using hfirst

theorem isSign_of_text {t : Token} {c : Char} (hkind : t.kind = .punctuation)
    (htext : t.text.toList = [c]) (hc : GlslMinifier.isSign c = true) : t.isSign = true := by
  have ht : t.text = String.ofList [c] := by rw [← htext, String.ofList_toList]
  simp only [GlslMinifier.isSign, Bool.or_eq_true, beq_iff_eq] at hc
  unfold isSign isPunctuation
  rcases hc with rfl | rfl
  · simp [hkind, ht]
  · simp [hkind, ht]

/-- A number goes on with a sign just when it ends in an exponent mark. -/
theorem absorbs_sign {t : Token} {c : Char} (hkind : t.kind = .number)
    (hchar : isNumberChar c = false) (hc : GlslMinifier.isSign c = true) :
    t.absorbs c = t.danglesExponent := by
  unfold absorbs danglesExponent last?
  rw [hkind]
  show t.text.toList.getLast?.any (numberGoesOn (spellsHex t.text.toList) · c) = _
  cases t.text.toList.getLast? with
  | none => simp
  | some prev => simp [numberGoesOn, hchar, hc]

/-- A slash does not meet the slash or star that would make it a comment. -/
theorem slash_of_fuses {t u : Token} {c : Char} (htext : t.text.toList = ['/'])
    (hc : u.first? = some c) (h : t.fuses u = false) : (c == '/' || c == '*') = false := by
  have hlast : t.last? = some '/' := by rw [last?, htext]; rfl
  rw [← Bool.not_eq_true, Bool.or_eq_true, beq_iff_eq, beq_iff_eq]
  intro hmark
  rcases hmark with rfl | rfl
  · simp [fuses, hlast, hc] at h
  · simp [fuses, hlast, hc] at h

/-- Tight punctuation goes on with nothing but what it would fuse with. -/
theorem absorbs_of_tight_left {t u : Token} {start : Bool} (ht : t.WellShaped start)
    (htight : t.isTight = true) (hfuse : t.fuses u = false) :
    u.first?.any t.absorbs = false := by
  obtain ⟨hkind, d, hd, htext⟩ := ht.text_of_isTight htight
  have hdot : d ≠ '.' := by
    intro heq
    subst heq
    exact absurd hd (by decide)
  cases hc : u.first? with
  | none => rfl
  | some c =>
    unfold absorbs
    rw [Option.any_some, hkind]
    -- of the list, only the slash begins longer tokens
    by_cases hslash : d = '/'
    · subst hslash
      simp [Kind.absorbs, htext, slash_of_fuses htext hc hfuse]
    · simp [Kind.absorbs, htext, hslash, hdot]

/-- Nothing goes on with tight punctuation but a slash, and a number that waits for a
    sign. -/
theorem absorbs_of_tight_right {t u : Token} {start : Bool} (hu : u.WellShaped start)
    (htight : u.isTight = true) (hspace : t.absorbs ' ' = false) (hfuse : t.fuses u = false)
    (hexp : t.danglesExponent = true → u.isSign = false) :
    u.first?.any t.absorbs = false := by
  obtain ⟨hkind, c, hc, htext⟩ := hu.text_of_isTight htight
  have hfirst : u.first? = some c := by simp [first?, htext]
  obtain ⟨hword, hnumber, hdigit, hblank⟩ := tightPunctuation_plain hc
  rw [hfirst, Option.any_some]
  -- whatever kind the left token has, a tight character is none of its own
  cases hkind' : t.kind with
  | newline =>
    unfold absorbs
    rw [hkind']
    rfl
  | whitespace =>
    unfold absorbs
    rw [hkind']
    exact hblank
  | directive =>
    unfold absorbs at hspace
    rw [hkind'] at hspace
    simp [Kind.absorbs] at hspace
  | comment =>
    unfold absorbs at hspace ⊢
    rw [hkind'] at hspace ⊢
    exact commentAbsorbs_of_ne (by decide) hspace c
  | identifier =>
    unfold absorbs
    rw [hkind']
    exact hword
  | number =>
    by_cases hsign : GlslMinifier.isSign c = true
    · -- the exception: a number that waits for a sign
      rw [absorbs_sign hkind' hnumber hsign, ← Bool.not_eq_true]
      intro hdangles
      exact absurd (isSign_of_text hkind htext hsign) (by simp [hexp hdangles])
    · unfold absorbs
      rw [hkind']
      exact Kind.absorbs_number_of_plain hnumber (by simpa using hsign) _
  | punctuation =>
    unfold absorbs
    rw [hkind']
    by_cases hslash : t.text.toList = ['/']
    · simp [Kind.absorbs, hslash, slash_of_fuses hslash hfirst hfuse]
    · simp [Kind.absorbs, hslash, hdigit]

end Token

/-- Tokens that meet in place of a gap stay apart. -/
theorem absorbs_eq_false_of_dropped {t u : Token} {start start' : Bool}
    (ht : t.WellShaped start) (hu : u.WellShaped start') (hspace : t.absorbs ' ' = false)
    (hdropped : gapBetween (some t) (some u) = "")
    (hexp : t.danglesExponent = true → u.isSign = false) :
    u.first?.any t.absorbs = false := by
  have hcond : (t.isTight || u.isTight) = true ∧ t.fuses u = false := by
    simp only [gapBetween] at hdropped
    split at hdropped
    next h => simpa using h
    next => exact absurd hdropped (by decide)
  obtain ⟨htight, hfuse⟩ := hcond
  rw [Bool.or_eq_true] at htight
  rcases htight with hleft | hright
  · exact Token.absorbs_of_tight_left ht hleft hfuse
  · exact Token.absorbs_of_tight_right hu hright hspace hfuse hexp

/-! ## §3. Narrowed cuts. -/

/-- No decimal number that ends in an exponent mark has a gap between it and a sign. -/
def NoLooseSign (ts : List Token) : Prop :=
  ∀ t g u, [t, g, u] <:+: ts → t.danglesExponent = true → g.isGap = true → u.isSign = false

theorem NoLooseSign.of_infix {ts us : List Token} (h : NoLooseSign us) (hpart : ts <:+: us) :
    NoLooseSign ts :=
  fun t g u htriple => h t g u (htriple.trans hpart)

theorem noLooseSign_of_forall {ts : List Token} (h : ∀ t ∈ ts, t.danglesExponent = false) :
    NoLooseSign ts := by
  intro t g u htriple hdangles
  rw [h t (htriple.subset List.mem_cons_self)] at hdangles
  exact absurd hdangles (by decide)

/-- Inside a line, no gap follows a gap. -/
theorem Cut.not_isGap_of_gap {lineStart : Bool} {g u : Token} {us : List Token}
    (h : Cut lineStart none (g :: u :: us)) (hg : g.kind = .whitespace)
    (hline : u.kind ≠ .newline) : u.isGap = false := by
  obtain ⟨-, hnext, hu, -⟩ := h
  rw [← Bool.not_eq_true]
  intro hgap
  -- the first of two gaps would have gone on with the second
  obtain ⟨c, hc, hblank⟩ := hu.first?_of_whitespace (kind_of_isGap hgap hline)
  simp [Token.headChar?, hc, Token.absorbs, hg, Kind.absorbs, hblank] at hnext

/-- What comes after a token of a narrowed text: the token that came after it before, or,
    when that was a gap, nothing, a space or the token behind the gap. -/
theorem head?_narrowTokens {lineStart : Bool} (t : Token) {ts : List Token}
    (h : Cut lineStart none ts) (hline : ∀ u ∈ ts, u.kind ≠ .newline) :
    (ts.head?.any (·.isGap) = false ∧ (narrowTokens (some t) ts).head? = ts.head?)
      ∨ ∃ g us, ts = g :: us ∧ g.kind = .whitespace
        ∧ ((narrowTokens (some t) ts).head? = none
          ∨ (narrowTokens (some t) ts).head? = some Token.space
            ∧ gapBetween (some t) us.head? = " "
          ∨ ∃ u, us.head? = some u ∧ gapBetween (some t) (some u) = ""
            ∧ (narrowTokens (some t) ts).head? = some u) := by
  cases ts with
  | nil => exact .inl ⟨rfl, rfl⟩
  | cons g us =>
    by_cases hgap : g.isGap = true
    · -- the gap is dropped or kept, and the token behind it is no gap
      refine .inr ⟨g, us, rfl, kind_of_isGap hgap (hline g List.mem_cons_self), ?_⟩
      rw [narrowTokens_gap hgap, gapTokens]
      rcases gapBetween_cases (some t) us.head? with hdropped | hkept
      · rw [if_pos hdropped, List.nil_append]
        cases us with
        | nil => exact .inl rfl
        | cons u us =>
          have hu : u.isGap = false := h.not_isGap_of_gap
            (kind_of_isGap hgap (hline g List.mem_cons_self))
            (hline u (List.mem_cons_of_mem _ List.mem_cons_self))
          rw [narrowTokens_keep hu]
          exact .inr (.inr ⟨u, rfl, hdropped, rfl⟩)
      · rw [hkept, if_neg (by decide)]
        exact .inr (.inl ⟨rfl, rfl⟩)
    · rw [Bool.not_eq_true] at hgap
      rw [narrowTokens_keep hgap]
      exact .inl ⟨hgap, rfl⟩

theorem headChar?_eq (ts : List Token) :
    Token.headChar? none ts = ts.head?.bind Token.first? := by
  cases ts <;> rfl

/-- What stands behind a gap goes on standing apart from what is left of it. -/
theorem Cut.headChar?_after_gap {lineStart : Bool} {g : Token} {ts : List Token}
    (h : Cut lineStart none (g :: ts)) (hg : g.kind = .whitespace)
    (hline : ∀ t ∈ ts, t.kind ≠ .newline) :
    (Token.headChar? none (narrowTokens (some g) ts)).any isBlank = false := by
  cases ts with
  | nil => rfl
  | cons u us =>
    have hu : u.isGap = false := h.not_isGap_of_gap hg (hline u List.mem_cons_self)
    have hblank : u.first?.any g.absorbs = false := h.2.1
    unfold Token.absorbs at hblank
    rw [hg] at hblank
    rw [narrowTokens_keep hu]
    exact hblank

/-- What comes after a token does not continue it once the text is narrowed, unless the
    token waits for a sign that stands behind a gap. -/
theorem Cut.headChar?_narrowTokens {lineStart : Bool} {t : Token} {ts : List Token}
    (h : Cut lineStart none (t :: ts)) (hline : ∀ u ∈ ts, u.kind ≠ .newline)
    (hexp : t.danglesExponent = true →
      ∀ g u us, ts = g :: u :: us → g.isGap = true → u.isSign = false) :
    (Token.headChar? none (narrowTokens (some t) ts)).any t.absorbs = false := by
  obtain ⟨hshape, hnext, hrest⟩ := h
  rw [headChar?_eq] at hnext ⊢
  rcases head?_narrowTokens t hrest hline with ⟨-, hsame⟩ | ⟨g, us, rfl, hg, hafter⟩
  · rw [hsame]
    exact hnext
  · -- a gap came after the token, so that a space may come as well
    obtain ⟨c, hc, hblank⟩ := hrest.1.first?_of_whitespace hg
    have hspace : t.absorbs ' ' = false := by
      refine Token.absorbs_space hblank ?_
      simpa [hc] using hnext
    rcases hafter with hnone | ⟨hkept, -⟩ | ⟨u, hu, hdropped, hmeets⟩
    · rw [hnone]
      rfl
    · rw [hkept]
      exact hspace
    · rw [hmeets]
      cases us with
      | nil => simp at hu
      | cons v vs =>
        obtain rfl : v = u := by simpa using hu
        have hsign : t.danglesExponent = true → v.isSign = false := by
          intro hdangles
          exact hexp hdangles g v vs rfl (isGap_iff.2 (.inl hg))
        exact absorbs_eq_false_of_dropped hshape hrest.2.2.1 hspace hdropped hsign

/-- **Narrowing moves no token boundary** inside a line. -/
theorem Cut.narrowTokens {lineStart : Bool} {ts : List Token} (h : Cut lineStart none ts)
    (left? : Option Token) (hline : ∀ t ∈ ts, t.kind ≠ .newline)
    (hexp : NoLooseSign ts) : Cut lineStart none (narrowTokens left? ts) := by
  induction ts generalizing lineStart left? with
  | nil => trivial
  | cons t ts ih =>
    have hlater : ∀ u ∈ ts, u.kind ≠ .newline := fun u hu =>
      hline u (List.mem_cons_of_mem _ hu)
    have hnarrow := ih h.2.2 (some t) hlater
      (hexp.of_infix (List.suffix_cons t ts).isInfix)
    by_cases hgap : t.isGap = true
    · have hkind := kind_of_isGap hgap (hline t List.mem_cons_self)
      have hapart := h.headChar?_after_gap hkind hlater
      rw [hkind] at hnarrow
      rw [narrowTokens_gap hgap, gapTokens]
      by_cases hdropped : gapBetween left? ts.head? = ""
      · rw [if_pos hdropped]
        exact hnarrow
      · rw [if_neg hdropped]
        exact ⟨Token.space_wellShaped lineStart, hapart, hnarrow⟩
    · rw [Bool.not_eq_true] at hgap
      rw [narrowTokens_keep hgap]
      refine ⟨h.1, h.headChar?_narrowTokens hlater fun hdangles g u us heq => ?_, hnarrow⟩
      exact hexp t g u ⟨[], us, by rw [heq]; rfl⟩ hdangles

/-- What the lexer finds in a narrowed line. -/
theorem tokenize_collapseSpaces {text : String}
    (hline : ∀ t ∈ tokenize text, t.kind ≠ .newline) (hexp : NoLooseSign (tokenize text)) :
    tokenize (collapseSpaces text) = narrowTokens none (tokenize text) := by
  rw [collapseSpaces_eq]
  exact ((cut_tokenize text).narrowTokens none hline hexp).tokenize_spell

/-! ## §4. Doubled signs. -/

namespace Token

/-- Both tokens are `+`, or both are `-`. -/
def doubles (t u : Token) : Bool :=
  (t.isPunctuation "+" && u.isPunctuation "+") || (t.isPunctuation "-" && u.isPunctuation "-")

theorem fuses_of_doubles {t u : Token} (h : t.doubles u = true) : t.fuses u = true := by
  simp only [doubles, isPunctuation, Bool.or_eq_true, Bool.and_eq_true, beq_iff_eq] at h
  rcases h with ⟨⟨-, ht⟩, -, hu⟩ | ⟨⟨-, ht⟩, -, hu⟩
  · simp [fuses, last?, first?, ht, hu]
  · simp [fuses, last?, first?, ht, hu]

theorem doubles_gap {t g : Token} (h : g.kind = .whitespace) : t.doubles g = false := by
  simp [doubles, isPunctuation, h]

end Token

/-- The tokens that carry meaning, each with whether the next token of the text is there,
    directly after it, to make a doubled sign of the two. -/
def joinedSigns : List Token → List (Token × Bool)
  | [] => []
  | t :: ts =>
    (if t.isTrivia then [] else [(t, ts.head?.any t.doubles)]) ++ joinedSigns ts

theorem map_fst_joinedSigns (ts : List Token) :
    (joinedSigns ts).map (·.1) = Token.significant ts := by
  induction ts with
  | nil => rfl
  | cons t ts ih =>
    rw [joinedSigns, List.map_append, ih, Token.significant, Token.significant,
      List.filter_cons]
    cases t.isTrivia <;> rfl

theorem joinedSigns_trivia {t : Token} {ts : List Token} (h : t.isTrivia = true) :
    joinedSigns (t :: ts) = joinedSigns ts := by
  rw [joinedSigns, if_pos h]
  rfl

/-- A token without a meaning separates what stands before it from what stands after. -/
theorem joinedSigns_append_trivia {g : Token} (h : g.isTrivia = true)
    (hsign : ∀ t : Token, t.doubles g = false) (ts us : List Token) :
    joinedSigns (ts ++ g :: us) = joinedSigns ts ++ joinedSigns us := by
  induction ts with
  | nil => exact joinedSigns_trivia h
  | cons t ts ih =>
    rw [List.cons_append, joinedSigns, joinedSigns, ih, List.append_assoc]
    cases ts with
    | nil => simp [hsign t]
    | cons u us => rfl

/-- Narrowing makes no doubled sign and leaves none: where a gap stood between equal signs,
    a space is left. -/
theorem any_doubles_narrowTokens {lineStart : Bool} {ts : List Token}
    (h : Cut lineStart none ts) (t : Token) (hline : ∀ u ∈ ts, u.kind ≠ .newline) :
    (narrowTokens (some t) ts).head?.any t.doubles = ts.head?.any t.doubles := by
  rcases head?_narrowTokens t h hline with ⟨-, hsame⟩ | ⟨g, us, rfl, hg, hafter⟩
  · rw [hsame]
  · rw [List.head?_cons, Option.any_some, Token.doubles_gap hg]
    rcases hafter with hnone | ⟨hkept, -⟩ | ⟨u, -, hdropped, hmeets⟩
    · rw [hnone]
      rfl
    · rw [hkept]
      exact Token.doubles_gap rfl
    · -- a doubled sign would fuse, and the gap would have been kept
      rw [hmeets, Option.any_some, ← Bool.not_eq_true]
      intro hdoubles
      simp [gapBetween, Token.fuses_of_doubles hdoubles] at hdropped

/-- Narrowing inside a line keeps all tokens that carry meaning, keeps doubled signs
    doubled and joins no others. -/
theorem joinedSigns_narrowTokens {lineStart : Bool} {ts : List Token}
    (h : Cut lineStart none ts) (left? : Option Token) (hline : ∀ t ∈ ts, t.kind ≠ .newline) :
    joinedSigns (narrowTokens left? ts) = joinedSigns ts := by
  induction ts generalizing lineStart left? with
  | nil => rfl
  | cons t ts ih =>
    obtain ⟨-, -, hrest⟩ := h
    have hlater : ∀ u ∈ ts, u.kind ≠ .newline := fun u hu =>
      hline u (List.mem_cons_of_mem _ hu)
    have hnarrow := ih hrest (some t) hlater
    by_cases hgap : t.isGap = true
    · have htrivia : t.isTrivia = true := by
        unfold Token.isTrivia
        rw [kind_of_isGap hgap (hline t List.mem_cons_self)]
        rfl
      rw [narrowTokens_gap hgap, joinedSigns_trivia htrivia, gapTokens, ← hnarrow]
      by_cases hdropped : gapBetween left? ts.head? = ""
      · rw [if_pos hdropped]
        rfl
      · rw [if_neg hdropped]
        exact joinedSigns_trivia rfl
    · rw [Bool.not_eq_true] at hgap
      rw [narrowTokens_keep hgap, joinedSigns, joinedSigns, hnarrow,
        any_doubles_narrowTokens hrest t hlater]

/-! ## §5. Adjacent tokens. -/

/-- Of the tokens that carry meaning, the ones at `k` and at `k + 1` are there, and nothing
    stands between them. -/
def AdjacentAt (ts : List Token) (k : Nat) : Prop :=
  ∃ before left right after, ts = before ++ left :: right :: after
    ∧ (Token.significant before).length = k ∧ left.isTrivia = false ∧ right.isTrivia = false

/-- Of the tokens that carry meaning, the ones at `k` and at `k + 1` are both `+`, or both
    `-`. -/
def DoubledAt (ts : List Token) (k : Nat) : Prop :=
  ∃ t u, (Token.significant ts)[k]? = some t ∧ (Token.significant ts)[k + 1]? = some u
    ∧ t.doubles u = true

theorem significant_append (ts us : List Token) :
    Token.significant (ts ++ us) = Token.significant ts ++ Token.significant us :=
  List.filter_append ts us

theorem significant_cons {t : Token} (h : t.isTrivia = false) (ts : List Token) :
    Token.significant (t :: ts) = t :: Token.significant ts :=
  List.filter_cons_of_pos (by simp [h])

theorem getElem?_joinedSigns (before : List Token) {t : Token} (h : t.isTrivia = false)
    (after : List Token) :
    (joinedSigns (before ++ t :: after))[(Token.significant before).length]?
      = some (t, after.head?.any t.doubles) := by
  induction before with
  | nil =>
    rw [List.nil_append, joinedSigns, if_neg (by simp [h])]
    rfl
  | cons u before ih =>
    by_cases hu : u.isTrivia = true
    · rw [List.cons_append, joinedSigns_trivia hu, Token.significant,
        List.filter_cons_of_neg (by simp [hu])]
      exact ih
    · rw [Bool.not_eq_true] at hu
      rw [List.cons_append, joinedSigns, if_neg (by simp [hu]), significant_cons hu]
      exact ih

theorem exists_of_getElem?_joinedSigns {ts : List Token} {k : Nat} {t : Token} {flag : Bool}
    (h : (joinedSigns ts)[k]? = some (t, flag)) :
    ∃ before after, ts = before ++ t :: after ∧ (Token.significant before).length = k
      ∧ t.isTrivia = false ∧ after.head?.any t.doubles = flag := by
  induction ts generalizing k with
  | nil => simp [joinedSigns] at h
  | cons u ts ih =>
    by_cases hu : u.isTrivia = true
    · rw [joinedSigns_trivia hu] at h
      obtain ⟨before, after, rfl, hk, hrest⟩ := ih h
      refine ⟨u :: before, after, rfl, ?_, hrest⟩
      rw [Token.significant, List.filter_cons_of_neg (by simp [hu])]
      exact hk
    · rw [Bool.not_eq_true] at hu
      rw [joinedSigns, if_neg (by simp [hu])] at h
      cases k with
      | zero =>
        obtain ⟨rfl, rfl⟩ : u = t ∧ ts.head?.any u.doubles = flag := by simpa using h
        exact ⟨[], ts, rfl, rfl, hu, rfl⟩
      | succ k =>
        obtain ⟨before, after, rfl, hk, hrest⟩ := ih (by simpa using h)
        refine ⟨u :: before, after, rfl, ?_, hrest⟩
        rw [significant_cons hu, List.length_cons, hk]

theorem Token.isTrivia_of_doubles {t u : Token} (h : t.doubles u = true) :
    u.isTrivia = false := by
  simp only [doubles, isPunctuation, Bool.or_eq_true, Bool.and_eq_true, beq_iff_eq] at h
  unfold isTrivia
  rcases h with ⟨-, hu, -⟩ | ⟨-, hu, -⟩
  · rw [hu]
    rfl
  · rw [hu]
    rfl

/-- Two equal signs in a row are adjacent just when the first of them is joined. -/
theorem adjacentAt_iff {ts : List Token} {k : Nat} (h : DoubledAt ts k) :
    AdjacentAt ts k ↔ ((joinedSigns ts).map (·.2))[k]? = some true := by
  constructor
  · -- adjacent signs: the first of them is joined to the second
    intro hadjacent
    obtain ⟨before, left, right, after, rfl, rfl, hleft, hright⟩ := hadjacent
    obtain ⟨t, u, ht, hu, hdoubles⟩ := h
    rw [significant_append, significant_cons hleft, significant_cons hright] at ht hu
    obtain rfl : left = t := by simpa using ht
    obtain rfl : right = u := by simpa using hu
    rw [List.getElem?_map, getElem?_joinedSigns before hleft]
    simp [hdoubles]
  · -- a joined sign: what it is joined to comes next
    intro hjoined
    rw [List.getElem?_map, Option.map_eq_some_iff] at hjoined
    obtain ⟨⟨left, flag⟩, hk, rfl⟩ := hjoined
    obtain ⟨before, after, rfl, hlength, hleft, hnext⟩ := exists_of_getElem?_joinedSigns hk
    cases after with
    | nil => simp at hnext
    | cons right after =>
      exact ⟨before, left, right, after, rfl, hlength, hleft,
        Token.isTrivia_of_doubles (by simpa using hnext)⟩

/-! ## §6. The ends of a narrowed line. -/

theorem head?_narrowTokens_none {ts : List Token} (h : ts.head?.any (·.isGap) = false) :
    (narrowTokens none ts).head? = ts.head? := by
  cases ts with
  | nil => rfl
  | cons t ts =>
    rw [narrowTokens_keep h]
    rfl

theorem getLast?_narrowTokens (left? : Option Token) {ts : List Token} {u : Token}
    (h : ts.getLast? = some u) (hgap : u.isGap = false) :
    (narrowTokens left? ts).getLast? = some u := by
  induction ts generalizing left? with
  | nil => simp at h
  | cons t ts ih =>
    cases ts with
    | nil =>
      obtain rfl : t = u := by simpa using h
      rw [narrowTokens_keep hgap]
      rfl
    | cons v vs =>
      rw [List.getLast?_cons_cons] at h
      rw [narrowTokens, List.getLast?_append, ih (some t) h]
      rfl

/-- Narrowing makes no tokens but spaces. -/
theorem mem_narrowTokens {left? : Option Token} {ts : List Token} {t : Token}
    (h : t ∈ narrowTokens left? ts) : t = Token.space ∨ t ∈ ts := by
  induction ts generalizing left? with
  | nil => simp [narrowTokens] at h
  | cons u ts ih =>
    rw [narrowTokens, List.mem_append] at h
    rcases h with h | h
    · by_cases hgap : u.isGap = true
      · rw [if_pos hgap, gapTokens] at h
        by_cases hdropped : gapBetween left? ts.head? = ""
        · simp [hdropped] at h
        · exact .inl (by simpa [hdropped] using h)
      · rw [if_neg hgap, List.mem_singleton] at h
        exact .inr (h ▸ List.mem_cons_self)
    · exact (ih h).imp_right (List.mem_cons_of_mem u)

theorem headChar?_eq_head?_spell {ts : List Token} (h : ∀ t ∈ ts, t.text.toList ≠ []) :
    Token.headChar? none ts = (Token.spell ts).toList.head? := by
  cases ts with
  | nil => rfl
  | cons t ts =>
    obtain ⟨c, cs, hc⟩ := List.exists_cons_of_ne_nil (h t List.mem_cons_self)
    simp [Token.headChar?, Token.first?, hc]

/-- A narrowed text begins with its first token, whatever the lexer finds in it. -/
theorem head?_spell_narrowTokens {lineStart : Bool} {ts : List Token}
    (h : Cut lineStart none ts) (left? : Option Token) :
    (Token.spell (narrowTokens left? ts)).toList.head?
      = Token.headChar? none (narrowTokens left? ts) := by
  refine (headChar?_eq_head?_spell fun t ht => ?_).symm
  rcases mem_narrowTokens ht with rfl | ht
  · decide
  · obtain ⟨start, hshape⟩ := h.exists_wellShaped ht
    exact hshape.ne_nil

/-- A gap at the end of a text vanishes. -/
theorem narrowTokens_append_gap {left? : Option Token} {ts : List Token} {u g : Token}
    (h : ts.getLast? = some u) (hu : u.isGap = false) (hg : g.isGap = true) :
    narrowTokens left? (ts ++ [g]) = narrowTokens left? ts := by
  induction ts generalizing left? with
  | nil => simp at h
  | cons t ts ih =>
    cases ts with
    | nil =>
      obtain rfl : t = u := by simpa using h
      rw [List.singleton_append, narrowTokens_keep hu, narrowTokens_keep hu,
        narrowTokens_gap hg]
      rfl
    | cons v vs =>
      rw [List.getLast?_cons_cons] at h
      rw [List.cons_append, narrowTokens, ih h, narrowTokens]
      rfl

end GlslMinifier
