/-
  GlslMinifier.Proofs.Compaction.Respelled — merging the lines of a respelled text.

  In a stripped text every comment is one that was left open, and it takes in all that
  follows it, also the lines that are merged with its own.  So the segments of a respelled
  text have the respelled tokens of the segments of the text itself, whatever the text.

  Main results:
    * `strippedLine_of_mem` — the comments on the lines of a stripped text
    * `midLine_append_plain`, `midLine_append_open` — a code line in front of a run
    * `LinesRespelled.segments` — respelled lines are merged into respelled segments
-/
import GlslMinifier.Proofs.Compaction.Commute
import GlslMinifier.Proofs.OpenComment

namespace GlslMinifier

/-! ## §1. Lines of a stripped text. -/

/-- A line as stripping leaves it: trimmed, and without comments but for one left open. -/
structure StrippedLine (l : String) : Prop where
  trimmed : IsTrimmed l
  no_break : '\n' ∉ l.toList
  open_comment : ∀ t ∈ tokenize l, t.kind = .comment → t.absorbs '\n' = true

theorem strippedLine_of_mem {text l : String}
    (h : l ∈ trimLines (lines (stripComments text))) : StrippedLine l := by
  obtain ⟨htrimmed, m, hm, hpart⟩ := mem_trimLines h
  refine ⟨htrimmed, not_newline_mem_of_mem_trimLines h, fun t ht hkind => ?_⟩
  obtain ⟨start, hshape⟩ := wellShaped_of_mem_tokenize ht
  have htoken := (infix_of_mem_tokenize ht).trans (hpart.trans (infix_of_mem_lines hm))
  unfold Token.WellShaped at hshape
  unfold Token.absorbs
  rw [hkind] at hshape ⊢
  rcases hshape with ⟨body, htext, -⟩ | ⟨body, htext, -⟩
  · -- line comments are gone
    rw [htext] at htoken
    exact absurd (List.IsInfix.trans ⟨[], body, rfl⟩ htoken)
      (not_lineMark_infix_stripComments text)
  · -- and so are closed block comments
    rw [htext] at htoken ⊢
    obtain ⟨before, after, hstripped⟩ := htoken
    have hclose := neverCloses_stripComments text (body ++ after)
      ⟨before, by rw [← hstripped]; simp⟩
    have hopen : splitClose? body = none := splitClose?_eq_none_iff.2 fun hmark =>
      hclose (List.infix_append_of_infix_left hmark)
    simp [Kind.absorbs, commentAbsorbs, hopen]

/-! ## §2. Runs of code in the middle of a line. -/

/-- A text that is lexed in the middle of a line as at the start of one. -/
structure MidLine (text : String) : Prop where
  cut : Cut false none (tokenize text)
  not_blank : text.toList.head?.any isBlank = false

theorem midLine_empty : MidLine "" := by
  have hempty : tokenize "" = [] := by simp [tokenize, scan]
  refine ⟨?_, rfl⟩
  rw [hempty]
  trivial

/-- Off the start of a line a `#` opens no directive; where none comes first, and what
    comes first carries a meaning or is all, that makes no difference. -/
theorem midLine_of_first {text : String} {t : Token} {ts : List Token}
    (htokens : tokenize text = t :: ts) (hquiet : ts = [] ∨ t.isTrivia = false)
    {c : Char} (hc : text.toList.head? = some c) (hwhite : isWhiteSpace c = false)
    (hmark : c ≠ '#') : MidLine text := by
  have hcut := cut_tokenize text
  have hhead := hcut.head?_spell
  rw [spell_tokenize, hc, htokens] at hhead
  constructor
  · rw [htokens] at hcut ⊢
    obtain ⟨hshape, hnext, hrest⟩ := hcut
    have hfirst : t.text.toList.head? ≠ some '#' := fun heq =>
      hmark (Option.some.inj (hhead.trans heq))
    refine ⟨hshape.off_lineStart hfirst, hnext, ?_⟩
    rcases hquiet with rfl | hquiet
    · trivial
    · have hsame : t.kind.keepsLineStart false = t.kind.keepsLineStart true := by
        unfold Token.isTrivia at hquiet
        cases hkind : t.kind with
        | whitespace | comment =>
          rw [hkind] at hquiet
          exact absurd hquiet (by decide)
        | newline | identifier | number | punctuation | directive => rfl
      rwa [hsame]
  · rw [hc, Option.any_some, ← Bool.not_eq_true]
    intro hblank
    exact absurd (isWhiteSpace_of_isBlank hblank) (by simp [hwhite])

theorem MidLine.respelled {text text' : String} (h : MidLine text)
    (hrel : List.Forall₂ Token.Respells (tokenize text) (tokenize text')) : MidLine text' := by
  obtain ⟨hcut, hblank⟩ := h
  have hhead := (cut_tokenize text).head?_spell
  have hhead' := (cut_tokenize text').head?_spell
  rw [spell_tokenize] at hhead hhead'
  refine ⟨hcut.respelled hrel, ?_⟩
  rw [hhead] at hblank
  rw [hhead']
  generalize tokenize text = ts at hcut hblank hrel
  generalize tokenize text' = us at hrel
  cases hrel with
  | nil => rfl
  | @cons t u ts us htu _ =>
    -- both texts begin alike, or each with a letter or underscore
    rcases htu.first?_cases hcut.1 with heq | ⟨-, d, -, hd, -, hstart⟩
    · show u.first?.any isBlank = false
      rw [heq]
      exact hblank
    · show u.first?.any isBlank = false
      rw [hd]
      exact isBlank_eq_false_of_isWordChar (isWordChar_of_isWordStart hstart)

theorem head?_append_space {l : String} (hl : l.toList ≠ []) (rest : String) :
    (l ++ " " ++ rest).toList.head? = l.toList.head? := by
  obtain ⟨c, cs, hc⟩ := List.exists_cons_of_ne_nil hl
  rw [String.toList_append, String.toList_append, hc]
  rfl

/-- An open block comment takes in all that follows it in its segment. -/
theorem tokenize_append_open_space {l run : String} {t : Token} (ht : t ∈ tokenize l)
    (hopen : t.absorbs '\n' = true) (hrun : ¬ ['*', '/'] <:+: run.toList) :
    ∃ before, tokenize l = before ++ [t]
      ∧ tokenize (l ++ " " ++ run) = before ++ [⟨.comment, t.text ++ (" " ++ run)⟩] := by
  rw [String.append_assoc]
  refine tokenize_append_open ht hopen ?_ fun hclose => ?_
  · rw [String.toList_append]
    exact fun hslash => absurd (Option.some.inj hslash) (by decide)
  · rw [String.toList_append] at hclose
    exact hrun (infix_of_infix_cons (by decide) hclose)

namespace StrippedLine

variable {l : String} (h : StrippedLine l)
include h

/-- The line begins with a token that carries meaning, or it is an open comment. -/
theorem exists_cons : ∃ t ts, tokenize l = t :: ts ∧ (ts = [] ∧ t.kind = .comment
    ∨ t.isTrivia = false) := by
  obtain ⟨⟨t, c, ht, hc, hwhite⟩, -⟩ := h.trimmed.trimmedTokens
  obtain ⟨ts, hts⟩ := List.head?_eq_some_iff.1 ht
  have hmem : t ∈ tokenize l := by simp [hts]
  have hcut := cut_tokenize l
  rw [hts] at hcut
  refine ⟨t, ts, hts, ?_⟩
  have hgap : t.isGap = false := hcut.1.isGap_eq_false (List.mem_of_head? hc) hwhite
  by_cases hkind : t.kind = .comment
  · -- nothing comes after a comment that is left open
    obtain ⟨body, rfl, hbody⟩ :=
      exists_body_of_absorbs_newline hcut.1 (h.open_comment t hmem hkind)
    exact .inl ⟨hcut.eq_nil_of_open hbody, rfl⟩
  · refine .inr ?_
    unfold Token.isGap at hgap
    unfold Token.isTrivia
    cases hkind' : t.kind with
    | comment => exact absurd hkind' hkind
    | newline | whitespace =>
      rw [hkind'] at hgap
      exact absurd hgap (by decide)
    | identifier | number | punctuation | directive => rfl

/-- A line that ends at its line break is plain. -/
theorem plainLine (hends : ∀ t ∈ tokenize l, t.absorbs '\n' = false) : PlainLine l := by
  refine ⟨h.trimmed, h.no_break, fun t ht hkind => ?_⟩
  have hopen := h.open_comment t ht hkind
  rw [hends t ht] at hopen
  exact Bool.noConfusion hopen

variable (hcode : LineKind.ofLine l = .code)
include hcode

/-- A code line in front of a run, when the first token of both together is the first token
    of the line or the only one. -/
theorem midLine_append {run : String} {t : Token} {ts : List Token}
    (htokens : tokenize (l ++ " " ++ run) = t :: ts) (hquiet : ts = [] ∨ t.isTrivia = false) :
    MidLine (l ++ " " ++ run) := by
  obtain ⟨⟨c, hc, hwhite⟩, -⟩ := h.trimmed
  refine midLine_of_first htokens hquiet (c := c) ?_ hwhite ?_
  · rw [head?_append_space h.trimmed.ne_nil, hc]
  · have hmark := ofLine_eq_code_iff.1 hcode
    rw [hc] at hmark
    exact fun heq => hmark (congrArg some heq)

/-- A plain code line in front of a run. -/
theorem midLine_append_plain (hends : ∀ t ∈ tokenize l, t.absorbs '\n' = false) {run : String}
    (hrun : MidLine run) : MidLine (l ++ " " ++ run) := by
  have hplain : CodeLine l := { h.plainLine hends with is_code := hcode }
  have htokens := hplain.tokenize_append_space run hrun.cut hrun.not_blank
  obtain ⟨t, ts, hts, ⟨-, hkind⟩ | hquiet⟩ := h.exists_cons
  · exact absurd hkind (hplain.no_comment t (by simp [hts]))
  · rw [hts, List.cons_append] at htokens
    exact h.midLine_append hcode htokens (.inr hquiet)

/-- A code line that opens a block comment, in front of a run that does not close it. -/
theorem midLine_append_open {t : Token} (ht : t ∈ tokenize l) (hopen : t.absorbs '\n' = true)
    {run : String} (hrun : ¬ ['*', '/'] <:+: run.toList) : MidLine (l ++ " " ++ run) := by
  obtain ⟨before, hbefore, htokens⟩ := tokenize_append_open_space ht hopen hrun
  cases before with
  | nil => exact h.midLine_append hcode htokens (.inl rfl)
  | cons u us =>
    obtain ⟨v, ts, hts, hfirst⟩ := h.exists_cons
    rw [hbefore, List.cons_append] at hts
    obtain ⟨rfl, rfl⟩ := List.cons.inj hts
    refine h.midLine_append hcode htokens (.inr (hfirst.resolve_left ?_))
    exact fun hnone => List.append_ne_nil_of_right_ne_nil us (List.cons_ne_nil t []) hnone.1

end StrippedLine

/-! ## §3. Segments of respelled lines. -/

/-- Where no line closes a comment, neither do lines that are merged. -/
theorem not_closing_firstRun {ls : List String} (h : ∀ k ∈ ls, ¬ ['*', '/'] <:+: k.toList) :
    ¬ ['*', '/'] <:+: (firstRun (segments ls)).toList := by
  induction ls with
  | nil => simp [segments, firstRun]
  | cons l ls ih =>
    obtain ⟨hl, hls⟩ := List.forall_mem_cons.1 h
    cases hline : LineKind.ofLine l with
    | directive =>
      rw [segments_cons_directive hline]
      simp [firstRun]
    | code =>
      rw [segments_cons_code hline]
      intro hclose
      simp only [firstRun, String.toList_append, List.append_assoc] at hclose
      rcases infix_of_infix_append_cons (by decide) (by decide) hclose with hfirst | hlater
      · exact hl hfirst
      · exact ih hls hlater

/-- `t` may stand for the segment `s` in a respelled text, also when a comment is left open
    in it. -/
structure Segment.Rewords (s t : Segment) : Prop where
  kind : t.kind = s.kind
  tokens : List.Forall₂ Token.Respells (tokenize s.text) (tokenize t.text)

theorem Segment.Rewords.refl (s : Segment) : s.Rewords s := ⟨rfl, forall₂_respells_refl _⟩

theorem rewords_firstRun {segs segs' : List Segment}
    (h : List.Forall₂ Segment.Rewords segs segs') :
    List.Forall₂ Token.Respells (tokenize (firstRun segs)) (tokenize (firstRun segs'))
      ∧ List.Forall₂ Segment.Rewords (afterRun segs) (afterRun segs') := by
  cases h with
  | nil => exact ⟨forall₂_respells_refl _, .nil⟩
  | @cons s t segs segs' hst hlater =>
    obtain ⟨kind, run⟩ := s
    obtain ⟨kind', run'⟩ := t
    obtain rfl : kind' = kind := hst.kind
    cases kind' with
    | directive => exact ⟨forall₂_respells_refl _, .cons hst hlater⟩
    | code => exact ⟨hst.tokens, hlater⟩

/-- A line that opens a block comment is for no directive. -/
theorem ofLine_of_open {l : String} (hbreak : '\n' ∉ l.toList) {t : Token}
    (ht : t ∈ tokenize l) (hopen : t.absorbs '\n' = true) : LineKind.ofLine l = .code := by
  cases hline : LineKind.ofLine l with
  | code => rfl
  | directive =>
    -- a directive line is one token, and no comment
    rw [tokenize_of_directive hbreak (head?_of_directive hline), List.mem_singleton] at ht
    subst ht
    exact absurd hopen (Bool.eq_false_iff.1 (Kind.absorbs_newline Kind.noConfusion _))

/-- A respelled line that opens a block comment, in front of a run that does not close it. -/
theorem respells_append_open {l m run : String} {t : Token} (ht : t ∈ tokenize l)
    (hopen : t.absorbs '\n' = true) (hrun : ¬ ['*', '/'] <:+: run.toList)
    (hrel : List.Forall₂ Token.Respells (tokenize l) (tokenize m)) :
    List.Forall₂ Token.Respells (tokenize (l ++ " " ++ run)) (tokenize (m ++ " " ++ run)) := by
  obtain ⟨start, hshape⟩ := wellShaped_of_mem_tokenize ht
  obtain ⟨body, rfl, -⟩ := exists_body_of_absorbs_newline hshape hopen
  obtain ⟨before, hbefore, htokens⟩ := tokenize_append_open_space ht hopen hrun
  -- the comment stays, and takes in the run on both sides
  rw [hbefore] at hrel
  obtain ⟨ds, hds, hrel⟩ := exists_concat_of_respells Kind.noConfusion hrel
  obtain ⟨before', hbefore', htokens'⟩ :=
    tokenize_append_open_space (l := m) (by simp [hds]) hopen hrun
  obtain rfl : before' = ds := List.append_cancel_right (hbefore'.symm.trans hds)
  rw [htokens, htokens']
  exact List.rel_append hrel (.cons (Token.Respells.refl _) .nil)

/-- A respelled plain code line in front of a respelled run. -/
theorem LineRespells.append_run {l m run run' : String} (h : LineRespells l m)
    (hl : LineKind.ofLine l = .code) (hmid : MidLine run)
    (hrun : List.Forall₂ Token.Respells (tokenize run) (tokenize run')) :
    List.Forall₂ Token.Respells (tokenize (l ++ " " ++ run)) (tokenize (m ++ " " ++ run')) := by
  have hleft : CodeLine l := { h.plain with is_code := hl }
  have hright : CodeLine m := { h.plain_right with is_code := h.ofLine_eq.trans hl }
  have hmid' := hmid.respelled hrun
  rw [hleft.tokenize_append_space run hmid.cut hmid.not_blank,
    hright.tokenize_append_space run' hmid'.cut hmid'.not_blank]
  exact List.rel_append h.tokens (.cons (Token.Respells.refl _) hrun)

/-- **Respelled lines are merged into respelled segments**, and the run that comes first is
    lexed in the middle of a line as at its start. -/
theorem LinesRespelled.segments {ls ms : List String} (h : LinesRespelled ls ms)
    (hls : ∀ l ∈ ls, StrippedLine l) :
    List.Forall₂ Segment.Rewords (segments ls) (segments ms)
      ∧ MidLine (firstRun (GlslMinifier.segments ls)) := by
  induction h with
  | nil => exact ⟨.nil, midLine_empty⟩
  | @ends l m ls ms hends htokens _ ih =>
    obtain ⟨hl, hls⟩ := List.forall_mem_cons.1 hls
    obtain ⟨hrel, hmid⟩ := ih hls
    have hplain : LineRespells l m := ⟨hl.plainLine hends, htokens⟩
    cases hline : LineKind.ofLine l with
    | directive =>
      rw [segments_cons_directive hline, segments_cons_directive (hplain.ofLine_eq.trans hline)]
      exact ⟨.cons ⟨rfl, htokens⟩ hrel, midLine_empty⟩
    | code =>
      -- the line joins the run that comes first on both sides
      obtain ⟨hrun, hafter⟩ := rewords_firstRun hrel
      rw [segments_cons_code hline, segments_cons_code (hplain.ofLine_eq.trans hline)]
      exact ⟨.cons ⟨rfl, hplain.append_run hline hmid hrun⟩ hafter,
        hl.midLine_append_plain hline hends hmid⟩
  | @opens l m ls t ht hopen htokens hunclosed =>
    obtain ⟨hl, -⟩ := List.forall_mem_cons.1 hls
    have hline := ofLine_of_open hl.no_break ht hopen
    have hsame := (keepsRole_of_respells hl.trimmed hl.no_break htokens).kind
    have hrun := not_closing_firstRun hunclosed
    -- the later lines are the same on both sides, so their segments are
    obtain ⟨-, hafter⟩ := rewords_firstRun
      (List.forall₂_same.2 fun s (_ : s ∈ GlslMinifier.segments ls) => Segment.Rewords.refl s)
    rw [segments_cons_code hline, segments_cons_code (hsame.trans hline)]
    exact ⟨.cons ⟨rfl, respells_append_open ht hopen hrun htokens⟩ hafter,
      hl.midLine_append_open hline ht hopen hrun⟩

end GlslMinifier
