/-
  GlslMinifier.Proofs.PlainLine — lines as the compaction meets them.

  After stripping, a text consists of plain lines: trimmed, and free of comments.  Such
  lines are lexed one by one, whether line breaks or spaces stand between them, and they
  stay plain when their identifiers are respelled.

  Main results:
    * `plainLine_of_strippedSource` — stripped texts consist of plain lines
    * `joinedSigns_unlines` — a text of plain lines is lexed line by line
    * `PlainLine.append_space`, `tokenize_append_space` — code lines sharing a line
    * `exists_respelled_lines` — respelling a text respells its lines
-/
import GlslMinifier.Minify
import GlslMinifier.Proofs.Lines
import GlslMinifier.Proofs.Narrowing
import GlslMinifier.Proofs.Respelling

namespace GlslMinifier

/-! ## §1. The ends of a token list. -/

/-- The first and the last token begin and end with something other than white space. -/
def TrimmedTokens (ts : List Token) : Prop :=
  (∃ t c, ts.head? = some t ∧ t.first? = some c ∧ isWhiteSpace c = false)
    ∧ ∃ t c, ts.getLast? = some t ∧ t.last? = some c ∧ isWhiteSpace c = false

theorem head?_spell_of_first? {ts : List Token} {t : Token} {c : Char} (ht : ts.head? = some t)
    (hc : t.first? = some c) : (Token.spell ts).toList.head? = some c := by
  obtain ⟨us, rfl⟩ := List.head?_eq_some_iff.1 ht
  have hfirst : t.text.toList.head? = some c := hc
  rw [Token.spell_cons, String.toList_append, List.head?_append, hfirst]
  rfl

theorem getLast?_spell_of_last? {ts : List Token} {t : Token} {c : Char}
    (ht : ts.getLast? = some t) (hc : t.last? = some c) :
    (Token.spell ts).toList.getLast? = some c := by
  obtain ⟨us, rfl⟩ := List.getLast?_eq_some_iff.1 ht
  have hlast : t.text.toList.getLast? = some c := hc
  rw [Token.spell_append, Token.spell_cons, Token.spell_nil, String.append_empty,
    String.toList_append, List.getLast?_append, hlast]
  rfl

/-- What is spelled by a list with such ends is trimmed, however the lexer cuts it. -/
theorem TrimmedTokens.isTrimmed_spell {ts : List Token} (h : TrimmedTokens ts) :
    IsTrimmed (Token.spell ts) := by
  obtain ⟨⟨t, c, ht, hc, hfirst⟩, u, d, hu, hd, hlast⟩ := h
  exact ⟨⟨c, head?_spell_of_first? ht hc, hfirst⟩, d, getLast?_spell_of_last? hu hd, hlast⟩

/-- The ends of a trimmed text are the ends of its tokens. -/
theorem Cut.trimmedTokens {lineStart : Bool} {ts : List Token} (h : Cut lineStart none ts)
    (htrimmed : IsTrimmed (Token.spell ts)) : TrimmedTokens ts := by
  obtain ⟨⟨c, hc, hfirst⟩, d, hd, hlast⟩ := htrimmed
  rw [h.head?_spell, headChar?_eq] at hc
  rw [h.getLast?_spell] at hd
  obtain ⟨t, ht, hc⟩ := Option.bind_eq_some_iff.1 hc
  obtain ⟨u, hu, hd⟩ := Option.bind_eq_some_iff.1 hd
  exact ⟨⟨t, c, ht, hc, hfirst⟩, u, d, hu, hd, hlast⟩

/-- A gap is white space through and through. -/
theorem Token.WellShaped.isGap_eq_false {t : Token} {lineStart : Bool}
    (h : t.WellShaped lineStart) {c : Char} (hc : c ∈ t.text.toList)
    (hwhite : isWhiteSpace c = false) : t.isGap = false := by
  rw [← Bool.not_eq_true, isGap_iff]
  unfold WellShaped at h
  intro hgap
  rcases hgap with hkind | hkind
  · rw [hkind] at h
    exact absurd (isWhiteSpace_of_isBlank (h.2 c hc)) (by simp [hwhite])
  · rw [hkind] at h
    rw [show t.text.toList = ['\n'] from h, List.mem_singleton] at hc
    subst hc
    exact absurd hwhite (by decide)

theorem Cut.head?_not_isGap {lineStart : Bool} {ts : List Token} (h : Cut lineStart none ts)
    (hends : TrimmedTokens ts) : ts.head?.any (·.isGap) = false := by
  obtain ⟨⟨t, c, ht, hc, hwhite⟩, -⟩ := hends
  obtain ⟨start, hshape⟩ := h.exists_wellShaped (List.mem_of_head? ht)
  rw [ht, Option.any_some]
  exact hshape.isGap_eq_false (List.mem_of_head? hc) hwhite

theorem Cut.getLast?_not_isGap {lineStart : Bool} {ts : List Token} (h : Cut lineStart none ts)
    (hends : TrimmedTokens ts) : ∃ t, ts.getLast? = some t ∧ t.isGap = false := by
  obtain ⟨-, t, c, ht, hc, hwhite⟩ := hends
  obtain ⟨start, hshape⟩ := h.exists_wellShaped (List.mem_of_getLast? ht)
  exact ⟨t, ht, hshape.isGap_eq_false (List.mem_of_getLast? hc) hwhite⟩

/-! ## §2. Plain lines. -/

/-- A line that is trimmed, has no line break in it and is free of comments. -/
structure PlainLine (l : String) : Prop where
  trimmed : IsTrimmed l
  no_break : '\n' ∉ l.toList
  no_comment : ∀ t ∈ tokenize l, t.kind ≠ .comment

theorem infix_of_mem_tokenize {text : String} {t : Token} (h : t ∈ tokenize text) :
    t.text.toList <:+: text.toList := by
  have hspell := congrArg String.toList (spell_tokenize text)
  rw [Token.toList_spell] at hspell
  rw [← hspell, List.flatMap]
  exact List.infix_of_mem_flatten (List.mem_map_of_mem h)

theorem IsTrimmed.trimmedTokens {l : String} (h : IsTrimmed l) : TrimmedTokens (tokenize l) := by
  rw [← spell_tokenize l] at h
  exact (cut_tokenize l).trimmedTokens h

theorem wellShaped_of_mem_tokenize {text : String} {t : Token} (h : t ∈ tokenize text) :
    ∃ start, t.WellShaped start :=
  (cut_tokenize text).exists_wellShaped h

/-- Without a line break there is no token of one. -/
theorem kind_ne_newline {l : String} (h : '\n' ∉ l.toList) :
    ∀ t ∈ tokenize l, t.kind ≠ .newline := by
  intro t ht hkind
  obtain ⟨start, hshape⟩ := wellShaped_of_mem_tokenize ht
  unfold Token.WellShaped at hshape
  rw [hkind] at hshape
  -- its text would be a part of the line
  have hpart := infix_of_mem_tokenize ht
  rw [show t.text.toList = ['\n'] from hshape] at hpart
  exact h (hpart.subset List.mem_cons_self)

/-- Without a comment mark there is no comment. -/
theorem kind_ne_comment {l : String} (hline : ¬ ['/', '/'] <:+: l.toList)
    (hblock : ¬ ['/', '*'] <:+: l.toList) : ∀ t ∈ tokenize l, t.kind ≠ .comment := by
  intro t ht hkind
  obtain ⟨start, hshape⟩ := wellShaped_of_mem_tokenize ht
  unfold Token.WellShaped at hshape
  rw [hkind] at hshape
  -- a comment begins with its mark, which would be a part of the line
  have hpart := infix_of_mem_tokenize ht
  rcases hshape with ⟨body, htext, -⟩ | ⟨body, htext, -⟩
  · rw [htext] at hpart
    exact hline (List.IsInfix.trans ⟨[], body, rfl⟩ hpart)
  · rw [htext] at hpart
    exact hblock (List.IsInfix.trans ⟨[], body, rfl⟩ hpart)

/-- A stripped text consists of plain lines, if no block comment is left without an end. -/
theorem plainLine_of_strippedSource {text : String}
    (h : ¬ ['/', '*'] <:+: (strippedSource text).toList) :
    ∀ l ∈ trimLines (lines (stripComments text)), PlainLine l := by
  intro l hl
  obtain ⟨htrimmed, m, hm, hpart⟩ := mem_trimLines hl
  refine ⟨htrimmed, not_newline_mem_of_mem_trimLines hl, kind_ne_comment ?_ ?_⟩
  · -- line comments were cut off while stripping
    intro hmark
    exact not_lineMark_infix_stripComments text
      (hmark.trans (hpart.trans (infix_of_mem_lines hm)))
  · -- block comments were blanked, or the stripped text would hold their mark
    intro hmark
    exact h (hmark.trans (infix_unlines hl))

namespace PlainLine

variable {l : String} (h : PlainLine l)
include h

theorem trimmedTokens : TrimmedTokens (tokenize l) := h.trimmed.trimmedTokens

theorem kind_ne_newline : ∀ t ∈ tokenize l, t.kind ≠ .newline :=
  GlslMinifier.kind_ne_newline h.no_break

theorem absorbs_newline : ∀ t ∈ tokenize l, t.absorbs '\n' = false :=
  fun t ht => Kind.absorbs_newline (h.no_comment t ht) t.text.toList

end PlainLine

/-! ## §3. Texts of plain lines. -/

theorem tokenize_unlines_cons {l m : String} {ls : List String} (h : PlainLine l) :
    tokenize (unlines (l :: m :: ls))
      = tokenize l ++ Token.lineBreak :: tokenize (unlines (m :: ls)) := by
  rw [unlines_cons_cons]
  exact tokenize_append_newline h.absorbs_newline

/-- A text of plain lines is lexed line by line. -/
theorem joinedSigns_unlines {ls : List String} (h : ∀ l ∈ ls, PlainLine l) :
    joinedSigns (tokenize (unlines ls)) = ls.flatMap fun l => joinedSigns (tokenize l) := by
  induction ls with
  | nil => rw [unlines_nil, tokenize]; simp [scan, joinedSigns]
  | cons l ls ih =>
    have hlater := ih fun m hm => h m (List.mem_cons_of_mem _ hm)
    cases ls with
    | nil => rw [unlines_singleton, List.flatMap_cons, List.flatMap_nil, List.append_nil]
    | cons m ls =>
      have hsign : ∀ t : Token, t.doubles Token.lineBreak = false := fun t => by
        simp [Token.doubles, Token.isPunctuation, Token.lineBreak]
      rw [List.flatMap_cons, ← hlater, tokenize_unlines_cons (h l List.mem_cons_self),
        joinedSigns_append_trivia rfl hsign]

/-- The tokens of a text of plain lines are the tokens of its lines and line breaks. -/
theorem mem_tokenize_unlines {ls : List String} (h : ∀ l ∈ ls, PlainLine l) {l : String}
    (hl : l ∈ ls) {t : Token} (ht : t ∈ tokenize l) : t ∈ tokenize (unlines ls) := by
  induction ls with
  | nil => simp at hl
  | cons first later ih =>
    cases later with
    | nil =>
      obtain rfl : l = first := by simpa using hl
      rwa [unlines_singleton]
    | cons m later =>
      rw [tokenize_unlines_cons (h first List.mem_cons_self), List.mem_append]
      rcases List.mem_cons.1 hl with rfl | hl
      · exact .inl ht
      · have hrest := ih (fun k hk => h k (List.mem_cons_of_mem _ hk)) hl
        exact .inr (List.mem_cons_of_mem _ hrest)

/-! ## §4. Code lines. -/

/-- A plain line that is not for the preprocessor. -/
structure CodeLine (l : String) : Prop extends PlainLine l where
  is_code : LineKind.ofLine l = .code

theorem ofLine_eq_code_iff {l : String} :
    LineKind.ofLine l = .code ↔ l.toList.head? ≠ some '#' := by
  unfold LineKind.ofLine
  by_cases h : l.toList.head? = some '#'
  · simp [h]
  · simp [h]

theorem head?_of_directive {l : String} (h : LineKind.ofLine l = .directive) :
    l.toList.head? = some '#' := by
  by_contra hmark
  rw [ofLine_eq_code_iff.2 hmark] at h
  cases h

/-- Only a line break makes a line start again. -/
theorem Kind.keepsLineStart_false {kind : Kind} (h : kind ≠ .newline) :
    kind.keepsLineStart false = false := by
  cases kind with
  | newline => exact absurd rfl h
  | whitespace | comment | directive | identifier | number | punctuation => rfl

/-- Off the start of a line, no directive begins before the next line break. -/
theorem Cut.kind_ne_directive {next? : Option Char} {ts : List Token} (h : Cut false next? ts)
    (hline : ∀ t ∈ ts, t.kind ≠ .newline) : ∀ t ∈ ts, t.kind ≠ .directive := by
  induction ts with
  | nil => simp
  | cons t ts ih =>
    obtain ⟨hshape, -, hrest⟩ := h
    rw [Kind.keepsLineStart_false (hline t List.mem_cons_self)] at hrest
    intro u hu
    rcases List.mem_cons.1 hu with rfl | hu
    · intro hkind
      unfold Token.WellShaped at hshape
      rw [hkind] at hshape
      exact absurd hshape.1 (by decide)
    · exact ih hrest (fun v hv => hline v (List.mem_cons_of_mem _ hv)) u hu

theorem lineStartAfter_eq_false {ts : List Token} (hline : ∀ t ∈ ts, t.kind ≠ .newline) :
    lineStartAfter false ts = false := by
  induction ts with
  | nil => rfl
  | cons t ts ih =>
    show lineStartAfter (t.kind.keepsLineStart false) ts = false
    rw [Kind.keepsLineStart_false (hline t List.mem_cons_self)]
    exact ih fun u hu => hline u (List.mem_cons_of_mem _ hu)

/-- Away from `#`, the start of a line is like any other place. -/
theorem Kind.Shape.off_lineStart {kind : Kind} {lineStart : Bool} {text : List Char}
    (h : kind.Shape lineStart text) (hmark : text.head? ≠ some '#') :
    kind.Shape false text := by
  cases kind with
  | directive => exact absurd h.2.1 hmark
  | punctuation =>
    obtain ⟨c, rfl, hbreak, hblank, hstart, hdigit, -⟩ := h
    exact ⟨c, rfl, hbreak, hblank, hstart, hdigit, fun _ => rfl⟩
  | newline | whitespace | comment | identifier | number => exact h

namespace CodeLine

variable {l : String} (h : CodeLine l)
include h

/-- A code line may stand anywhere in a line, and a `#` after it opens no directive. -/
theorem cut_and_lineStartAfter :
    Cut false none (tokenize l) ∧ ∀ start, lineStartAfter start (tokenize l) = false := by
  have hcut := cut_tokenize l
  have hgap := hcut.head?_not_isGap h.trimmedTokens
  have hline := h.kind_ne_newline
  have hcomment := h.no_comment
  have hhead := hcut.head?_spell
  rw [spell_tokenize] at hhead
  obtain ⟨⟨t, c, ht, hc, -⟩, -⟩ := h.trimmedTokens
  cases hts : tokenize l with
  | nil => simp [hts] at ht
  | cons u us =>
    obtain rfl : u = t := by simpa [hts] using ht
    rw [hts] at hcut hgap hline hcomment hhead
    obtain ⟨hshape, hnext, hrest⟩ := hcut
    have hstart : ∀ start, u.kind.keepsLineStart start = false := by
      intro start
      -- the first token of a trimmed line without comments is no trivia
      have hspace : u.isGap = false := hgap
      cases hkind : u.kind with
      | newline => simp [isGap_iff.2 (.inr hkind)] at hspace
      | whitespace => simp [isGap_iff.2 (.inl hkind)] at hspace
      | comment => exact absurd hkind (hcomment u List.mem_cons_self)
      | identifier | number | punctuation | directive => rfl
    rw [hstart] at hrest
    -- and it does not begin with `#`, so it is the same token elsewhere in a line
    have hmark : u.first? ≠ some '#' := by
      have hcode := ofLine_eq_code_iff.1 h.is_code
      rwa [hhead] at hcode
    refine ⟨⟨hshape.off_lineStart hmark, hnext, by rwa [hstart]⟩, fun start => ?_⟩
    show lineStartAfter (u.kind.keepsLineStart start) us = false
    rw [hstart]
    exact lineStartAfter_eq_false fun v hv => hline v (List.mem_cons_of_mem _ hv)

theorem cut : Cut false none (tokenize l) := h.cut_and_lineStartAfter.1

/-- A code line may be followed by a space. -/
theorem cut_before_space : Cut true (some ' ') (tokenize l) := by
  refine (cut_tokenize l).before fun t ht => ?_
  obtain ⟨u, hu, hgap⟩ := (cut_tokenize l).getLast?_not_isGap h.trimmedTokens
  obtain rfl : t = u := by
    rw [ht] at hu
    exact Option.some.inj hu
  have hmem := List.mem_of_getLast? ht
  have hdirective := h.cut.kind_ne_directive h.kind_ne_newline t hmem
  have hcomment := h.no_comment t hmem
  have hblank : t.kind ≠ .whitespace := fun hkind => by
    simp [isGap_iff.2 (.inl hkind)] at hgap
  exact Token.absorbs_space_of_ne hblank hdirective hcomment

/-- What follows a code line after a space is lexed on its own. -/
theorem tokenize_append_space (rest : String) (hrest : Cut false none (tokenize rest))
    (hblank : rest.toList.head?.any isBlank = false) :
    tokenize (l ++ " " ++ rest) = tokenize l ++ Token.space :: tokenize rest := by
  -- the pieces are cuts where they stand now, and they spell the text
  rw [tokenize_eq_iff, cut_append, h.cut_and_lineStartAfter.2]
  refine ⟨⟨h.cut_before_space, Token.space_wellShaped false, ?_, hrest⟩, ?_⟩
  · rw [← hrest.head?_spell, spell_tokenize]
    exact hblank
  · rw [Token.spell_append, Token.spell_cons, spell_tokenize, spell_tokenize,
      String.append_assoc]
    rfl

theorem head?_any_isBlank : l.toList.head?.any isBlank = false := by
  obtain ⟨⟨c, hc, hwhite⟩, -⟩ := h.trimmed
  rw [hc, Option.any_some, ← Bool.not_eq_true]
  intro hblank
  exact absurd (isWhiteSpace_of_isBlank hblank) (by simp [hwhite])

/-- A space at the end of a code line is one more token. -/
theorem tokenize_append_blank : tokenize (l ++ " ") = tokenize l ++ [Token.space] := by
  have hempty : tokenize "" = [] := by simp [tokenize, scan]
  have happend := h.tokenize_append_space "" (by rw [hempty]; trivial) rfl
  rwa [String.append_empty, hempty] at happend

/-- Two code lines with a space between them are a code line. -/
theorem append_space {m : String} (hm : CodeLine m) : CodeLine (l ++ " " ++ m) := by
  have htext : (l ++ " " ++ m).toList = l.toList ++ ' ' :: m.toList := by
    rw [String.toList_append, String.toList_append, List.append_assoc]
    rfl
  have hhead : (l ++ " " ++ m).toList.head? = l.toList.head? := by
    obtain ⟨c, cs, hc⟩ := List.exists_cons_of_ne_nil h.trimmed.ne_nil
    rw [htext, hc]
    rfl
  refine { trimmed := ⟨?_, ?_⟩, no_break := ?_, no_comment := ?_, is_code := ?_ }
  · rw [hhead]
    exact h.trimmed.1
  · obtain ⟨-, c, hc, hwhite⟩ := hm.trimmed
    exact ⟨c, by rw [htext, List.getLast?_append, List.getLast?_cons, hc]; rfl, hwhite⟩
  · rw [htext, List.mem_append, List.mem_cons]
    intro hbreak
    rcases hbreak with hmem | heq | hmem
    · exact h.no_break hmem
    · exact absurd heq (by decide)
    · exact hm.no_break hmem
  · rw [h.tokenize_append_space m hm.cut hm.head?_any_isBlank]
    intro t ht
    rcases List.mem_append.1 ht with ht | ht
    · exact h.no_comment t ht
    · rcases List.mem_cons.1 ht with rfl | ht
      · decide
      · exact hm.no_comment t ht
  · rw [ofLine_eq_code_iff, hhead]
    exact ofLine_eq_code_iff.1 h.is_code

end CodeLine

/-! ## §5. Respelled lines. -/

theorem Token.Respells.first?_plain {t u : Token} (h : t.Respells u) {c : Char}
    (hc : t.first? = some c) (hwhite : isWhiteSpace c = false) :
    ∃ d, u.first? = some d ∧ isWhiteSpace d = false := by
  rcases h with rfl | ⟨-, -, htext⟩
  · exact ⟨c, hc, hwhite⟩
  · obtain ⟨d, ds, hd, hstart, -⟩ := (isIdentifier_iff_shape true).1 htext
    have hword := isWordChar_of_isWordStart hstart
    exact ⟨d, by simp [Token.first?, hd], isWhiteSpace_eq_false_of_isWordChar hword⟩

theorem Token.Respells.last?_plain {t u : Token} (h : t.Respells u) {c : Char}
    (hc : t.last? = some c) (hwhite : isWhiteSpace c = false) :
    ∃ d, u.last? = some d ∧ isWhiteSpace d = false := by
  rcases h with rfl | ⟨-, -, htext⟩
  · exact ⟨c, hc, hwhite⟩
  · obtain ⟨d, ds, hd, -⟩ := (isIdentifier_iff_shape true).1 htext
    have hlast : u.last? = some (ds.getLast?.getD d) := by
      rw [Token.last?, hd, List.getLast?_cons]
    have hmem := List.mem_of_getLast? hlast
    exact ⟨_, hlast, isWhiteSpace_eq_false_of_isWordChar (isWordChar_of_isIdentifier htext _ hmem)⟩

theorem TrimmedTokens.respelled {ts us : List Token} (h : TrimmedTokens ts)
    (hrel : List.Forall₂ Token.Respells ts us) : TrimmedTokens us := by
  obtain ⟨⟨t, c, ht, hc, hwhite⟩, t', c', ht', hc', hwhite'⟩ := h
  constructor
  · cases hrel with
    | nil => simp at ht
    | @cons v u vs us htu _ =>
      obtain rfl : v = t := by simpa using ht
      obtain ⟨d, hd, hplain⟩ := htu.first?_plain hc hwhite
      exact ⟨u, d, rfl, hd, hplain⟩
  · -- the last tokens are the first ones of the reversed lists
    rw [List.getLast?_eq_head?_reverse] at ht' ⊢
    have hback := List.rel_reverse hrel
    cases hus : us.reverse with
    | nil => simp_all
    | cons u vs =>
      cases hts : ts.reverse with
      | nil => simp [hts] at ht'
      | cons v ws =>
        rw [hus, hts] at hback
        rw [hts] at ht'
        obtain rfl : v = t' := by simpa using ht'
        obtain ⟨d, hd, hplain⟩ := (List.forall₂_cons.1 hback).1.last?_plain hc' hwhite'
        exact ⟨u, d, rfl, hd, hplain⟩

theorem Token.Respells.not_newline_mem {t u : Token} (h : t.Respells u)
    (hbreak : '\n' ∉ t.text.toList) : '\n' ∉ u.text.toList := by
  rcases h with rfl | ⟨-, -, htext⟩
  · exact hbreak
  · intro hmem
    exact absurd (isWordChar_of_isIdentifier htext _ hmem) (by decide)

theorem IsTrimmed.respelled {l : String} (h : IsTrimmed l) {us : List Token}
    (hrel : List.Forall₂ Token.Respells (tokenize l) us) : IsTrimmed (Token.spell us) :=
  (h.trimmedTokens.respelled hrel).isTrimmed_spell

/-- Respelling brings no line break into a line. -/
theorem not_newline_mem_respelled {l : String} (h : '\n' ∉ l.toList) {us : List Token}
    (hrel : List.Forall₂ Token.Respells (tokenize l) us) : '\n' ∉ (Token.spell us).toList := by
  rw [Token.toList_spell, List.mem_flatMap]
  intro hline
  obtain ⟨u, hu, hmem⟩ := hline
  have hbreak := forall_of_forall₂ hrel (fun _ _ => Token.Respells.not_newline_mem)
    (fun t ht hmem => h ((infix_of_mem_tokenize ht).subset hmem))
  exact hbreak u hu hmem

/-- A respelled plain line is a plain line, and is lexed as it was respelled. -/
theorem PlainLine.respelled {l : String} (h : PlainLine l) {us : List Token}
    (hrel : List.Forall₂ Token.Respells (tokenize l) us) :
    tokenize (Token.spell us) = us ∧ PlainLine (Token.spell us) := by
  have htokens := ((cut_tokenize l).respelled hrel).tokenize_spell
  refine ⟨htokens, h.trimmed.respelled hrel, not_newline_mem_respelled h.no_break hrel, ?_⟩
  rw [htokens]
  exact forall_of_forall₂ hrel (fun _ _ htu ht => by rwa [htu.kind_eq]) h.no_comment

/-- A directive line is one token. -/
theorem tokenize_of_directive {l : String} (hbreak : '\n' ∉ l.toList)
    (hmark : l.toList.head? = some '#') : tokenize l = [⟨.directive, l⟩] := by
  rw [tokenize_eq_iff]
  refine ⟨⟨⟨rfl, hmark, hbreak⟩, rfl, trivial⟩, ?_⟩
  rw [Token.spell_cons, Token.spell_nil, String.append_empty]

/-- A directive line is not respelled. -/
theorem spell_of_directive {l : String} (hbreak : '\n' ∉ l.toList)
    (hmark : l.toList.head? = some '#') {us : List Token}
    (hrel : List.Forall₂ Token.Respells (tokenize l) us) : Token.spell us = l := by
  rw [tokenize_of_directive hbreak hmark] at hrel
  obtain ⟨u, vs, hu, hvs, rfl⟩ := List.forall₂_cons_left_iff.1 hrel
  rw [List.forall₂_nil_left_iff] at hvs
  subst hvs
  -- its one token is no identifier
  obtain rfl : u = ⟨.directive, l⟩ := hu.resolve_right fun hword => nomatch hword.1
  rw [Token.spell_cons, Token.spell_nil, String.append_empty]

/-- A respelled line begins with `#` just when the line did. -/
theorem ofLine_respelled {l : String} {us : List Token}
    (hrel : List.Forall₂ Token.Respells (tokenize l) us) :
    LineKind.ofLine (Token.spell us) = LineKind.ofLine l := by
  have hcut := cut_tokenize l
  have hhead := (hcut.respelled hrel).head?_spell
  have hhead' := hcut.head?_spell
  rw [spell_tokenize] at hhead'
  unfold LineKind.ofLine
  rw [hhead, hhead']
  cases hts : tokenize l with
  | nil =>
    rw [hts, List.forall₂_nil_left_iff] at hrel
    rw [hrel]
  | cons t ts =>
    rw [hts] at hrel hcut
    obtain ⟨u, us', hu, -, rfl⟩ := List.forall₂_cons_left_iff.1 hrel
    -- both lines begin alike, or each with a letter or underscore
    rcases hu.first?_cases hcut.1 with heq | ⟨c, d, hc, hd, hstart, hstart'⟩
    · show (if u.first? = some '#' then _ else _) = if t.first? = some '#' then _ else _
      rw [heq]
    · have hmark : ∀ e, isWordStart e = true → e ≠ '#' := fun e he =>
        ne_of_isWordChar (isWordChar_of_isWordStart he) '#' (by decide)
      show (if u.first? = some '#' then _ else _) = if t.first? = some '#' then _ else _
      rw [hc, hd]
      simp [hmark c hstart, hmark d hstart']

/-- A line break is no identifier, so it stays one. -/
theorem exists_lineBreak_of_respells {ts vs us : List Token}
    (h : List.Forall₂ Token.Respells (ts ++ Token.lineBreak :: vs) us) :
    ∃ ds es, us = ds ++ Token.lineBreak :: es ∧ List.Forall₂ Token.Respells ts ds
      ∧ List.Forall₂ Token.Respells vs es := by
  obtain ⟨ds, es, rfl, hds, hes⟩ := exists_append_of_forall₂ h
  cases hes with
  | @cons _ b _ es hb hes =>
    obtain rfl : b = Token.lineBreak := hb.resolve_right fun hword =>
      absurd hword.1 (by decide)
    exact ⟨ds, es, rfl, hds, hes⟩

theorem spell_append_lineBreak (ts us : List Token) :
    Token.spell (ts ++ Token.lineBreak :: us) = Token.spell ts ++ "\n" ++ Token.spell us := by
  rw [Token.spell_append, Token.spell_cons, String.append_assoc]
  rfl

/-- Respelling a text of plain lines respells its lines. -/
theorem exists_respelled_lines {ls : List String} (h : ∀ l ∈ ls, PlainLine l) {us : List Token}
    (hrel : List.Forall₂ Token.Respells (tokenize (unlines ls)) us) :
    ∃ ms, Token.spell us = unlines ms ∧ (∀ m ∈ ms, PlainLine m)
      ∧ List.Forall₂ (fun l m => List.Forall₂ Token.Respells (tokenize l) (tokenize m)) ls ms := by
  induction ls generalizing us with
  | nil =>
    have hempty : tokenize (unlines []) = [] := by simp [tokenize, scan]
    rw [hempty] at hrel
    cases hrel
    exact ⟨[], rfl, by simp, .nil⟩
  | cons l ls ih =>
    have hl := h l List.mem_cons_self
    cases ls with
    | nil =>
      rw [unlines_singleton] at hrel
      obtain ⟨htokens, hplain⟩ := hl.respelled hrel
      refine ⟨[Token.spell us], (unlines_singleton _).symm, by simpa using hplain, ?_⟩
      exact .cons (by rwa [htokens]) .nil
    | cons m ls =>
      rw [tokenize_unlines_cons hl] at hrel
      obtain ⟨ds, es, rfl, hds, hes⟩ := exists_lineBreak_of_respells hrel
      obtain ⟨htokens, hplain⟩ := hl.respelled hds
      obtain ⟨ms, hspell, hms, hlines⟩ := ih (fun k hk => h k (List.mem_cons_of_mem _ hk)) hes
      cases hlines with
      | @cons _ first _ later hfirst hlater =>
        refine ⟨Token.spell ds :: first :: later, ?_, ?_, ?_⟩
        · rw [unlines_cons_cons, ← hspell, spell_append_lineBreak]
        · exact List.forall_mem_cons.2 ⟨hplain, hms⟩
        · exact .cons (by rwa [htokens]) (.cons hfirst hlater)

end GlslMinifier
