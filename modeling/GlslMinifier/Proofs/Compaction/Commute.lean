/-
  GlslMinifier.Proofs.Compaction.Commute — renaming and compacting in either order.

  What the compaction decides on, tight punctuation, signs that would fuse and lines that
  begin with `#`, is never spelled by an identifier.  So a compacted respelling is a
  respelling of the compacted text, and since both texts have the same tokens that carry
  meaning, they have the same survey and are renamed alike.

  Main results:
    * `narrowTokens_respelled` — narrowing respelled tokens respells narrowed tokens
    * `segments_respelled` — respelled lines are merged into respelled segments
    * `tokenize_compactSource_respelled` — compacting a respelled text
    * `minify_eq_rename_compacted` — a minified text is a compacted text, renamed
-/
import GlslMinifier.Proofs.Compaction.Tokens
import GlslMinifier.Proofs.Significant

namespace GlslMinifier

/-! ## §1. Narrowing respelled tokens. -/

theorem Token.Respells.refl (t : Token) : t.Respells t := .inl rfl

theorem forall₂_respells_refl (ts : List Token) : List.Forall₂ Token.Respells ts ts :=
  List.forall₂_same.2 fun t _ => Token.Respells.refl t

theorem Token.Respells.isGap_eq {t u : Token} (h : t.Respells u) : u.isGap = t.isGap := by
  unfold Token.isGap
  rw [h.kind_eq]

theorem Token.Respells.isTight_eq {t u : Token} (h : t.Respells u) :
    u.isTight = t.isTight := by
  rcases h with rfl | ⟨ht, hu, -⟩
  · rfl
  · unfold Token.isTight
    rw [ht, hu]
    rfl

/-- Word characters fuse with nothing. -/
theorem Token.fuses_eq_false_of_word {t u : Token} {c : Char} (hc : isWordChar c = true)
    (h : t.last? = some c ∨ u.first? = some c) : t.fuses u = false := by
  have hmark := ne_of_isWordChar hc
  by_contra hfuses
  rw [Bool.not_eq_false] at hfuses
  -- whatever fuses ends and begins with marks
  have hends : (∀ d, t.last? = some d → d ∈ ['+', '-', '/'])
      ∧ ∀ d, u.first? = some d → d ∈ ['+', '-', '/', '*'] := by
    unfold fuses at hfuses
    split at hfuses <;> simp_all
  have hsign : c ∈ ['+', '-', '/', '*'] := by
    rcases h with h | h
    · exact List.mem_append_left ['*'] (hends.1 c h)
    · exact hends.2 c h
  exact hmark c (by simp at hsign ⊢; tauto) rfl

theorem Token.WellShaped.exists_word {t : Token} {start : Bool} (h : t.WellShaped start)
    (hkind : t.kind = .identifier) :
    (∃ c, t.first? = some c ∧ isWordChar c = true)
      ∧ ∃ c, t.last? = some c ∧ isWordChar c = true := by
  unfold WellShaped at h
  rw [hkind] at h
  have hword := isWordChar_of_isIdentifier ((isIdentifier_iff_shape start).2 h)
  obtain ⟨c, cs, hc, -⟩ := h
  have hlast : t.last? = some (cs.getLast?.getD c) := by
    unfold last?
    rw [hc, List.getLast?_cons]
  refine ⟨⟨c, ?_, hword c (by simp [hc])⟩, _, hlast, hword _ (List.mem_of_getLast? hlast)⟩
  unfold first?
  rw [hc]
  rfl

/-- `u` may stand for the lexeme `t` in a respelled text. -/
def Token.RespellsLexeme (t u : Token) : Prop :=
  t.Respells u ∧ ∃ start, t.WellShaped start

theorem respellsLexeme_of_respells {ts us : List Token}
    (hts : ∀ t ∈ ts, ∃ start, t.WellShaped start) (h : List.Forall₂ Token.Respells ts us) :
    List.Forall₂ Token.RespellsLexeme ts us :=
  (List.forall₂_and_left _ _).2 ⟨hts, h⟩ |>.imp fun _ _ htu => ⟨htu.2, htu.1⟩

/-- Whether two tokens would fuse does not depend on the spelling of identifiers. -/
theorem fuses_respelled {t t' u u' : Token} (ht : t.RespellsLexeme t')
    (hu : u.RespellsLexeme u') : t'.fuses u' = t.fuses u := by
  obtain ⟨hrel, start, hshape⟩ := ht
  obtain ⟨hrel', start', hshape'⟩ := hu
  have hnew := hrel.wellShaped hshape
  have hnew' := hrel'.wellShaped hshape'
  rcases hrel with rfl | ⟨hkind, hkind', -⟩
  · rcases hrel' with rfl | ⟨hword, hword', -⟩
    · rfl
    · -- an identifier on the right
      obtain ⟨⟨c, hc, hplain⟩, -⟩ := hshape'.exists_word hword
      obtain ⟨⟨d, hd, hplain'⟩, -⟩ := hnew'.exists_word hword'
      rw [Token.fuses_eq_false_of_word hplain (.inr hc),
        Token.fuses_eq_false_of_word hplain' (.inr hd)]
  · -- an identifier on the left
    obtain ⟨-, c, hc, hplain⟩ := hshape.exists_word hkind
    obtain ⟨-, d, hd, hplain'⟩ := hnew.exists_word hkind'
    rw [Token.fuses_eq_false_of_word hplain (.inl hc),
      Token.fuses_eq_false_of_word hplain' (.inl hd)]

theorem gapBetween_respelled {left? left'? right? right'? : Option Token}
    (hleft : Option.Rel Token.RespellsLexeme left? left'?)
    (hright : Option.Rel Token.RespellsLexeme right? right'?) :
    gapBetween left'? right'? = gapBetween left? right? := by
  cases hleft with
  | none => rfl
  | some hleft =>
    cases hright with
    | none => rfl
    | some hright =>
      unfold gapBetween
      simp only [hleft.1.isTight_eq, hright.1.isTight_eq, fuses_respelled hleft hright]

/-- Narrowing respelled tokens respells the narrowed tokens. -/
theorem narrowTokens_respelled {ts us : List Token}
    (h : List.Forall₂ Token.RespellsLexeme ts us) {left? left'? : Option Token}
    (hleft : Option.Rel Token.RespellsLexeme left? left'?) :
    List.Forall₂ Token.Respells (narrowTokens left? ts) (narrowTokens left'? us) := by
  induction h generalizing left? left'? with
  | nil => exact .nil
  | @cons t u ts us htu hrest ih =>
    have hnext : Option.Rel Token.RespellsLexeme ts.head? us.head? := by
      cases hrest with
      | nil => exact .none
      | cons hnext _ => exact .some hnext
    have hlater := ih (.some htu)
    by_cases hgap : t.isGap = true
    · -- of both gaps the same is left
      rw [narrowTokens_gap hgap, narrowTokens_gap (htu.1.isGap_eq.trans hgap)]
      unfold gapTokens
      rw [gapBetween_respelled hleft hnext]
      exact List.rel_append (forall₂_respells_refl _) hlater
    · rw [Bool.not_eq_true] at hgap
      rw [narrowTokens_keep hgap, narrowTokens_keep (htu.1.isGap_eq.trans hgap)]
      exact .cons htu.1 hlater

/-! ## §2. Merging respelled lines. -/

/-- `m` may stand for the plain line `l` in a respelled text. -/
structure LineRespells (l m : String) : Prop where
  plain : PlainLine l
  tokens : List.Forall₂ Token.Respells (tokenize l) (tokenize m)

theorem LineRespells.lexemes {l m : String} (h : LineRespells l m) :
    List.Forall₂ Token.RespellsLexeme (tokenize l) (tokenize m) :=
  respellsLexeme_of_respells (fun _ => wellShaped_of_mem_tokenize) h.tokens

theorem LineRespells.plain_right {l m : String} (h : LineRespells l m) : PlainLine m := by
  have hplain := (h.plain.respelled h.tokens).2
  rwa [spell_tokenize] at hplain

/-- `t` may stand for the segment `s` in a respelled text. -/
inductive Segment.Respells : Segment → Segment → Prop
  /-- A directive stays as it is. -/
  | directive {l : String} (plain : PlainLine l) :
    Respells ⟨.directive, l⟩ ⟨.directive, l⟩
  /-- A run of code is one respelled line. -/
  | code {l m : String} (is_code : CodeLine l) (is_code' : CodeLine m)
    (tokens : LineRespells l m) (closed : ∀ t ∈ tokenize l, t.danglesExponent = false) :
    Respells ⟨.code, l ++ " "⟩ ⟨.code, m ++ " "⟩

/-- Two respelled code lines with a space between them are one. -/
theorem LineRespells.append_space {l m l' m' : String} (hl : CodeLine l) (hm : CodeLine m)
    (hl' : CodeLine l') (hm' : CodeLine m') (h : LineRespells l m) (h' : LineRespells l' m') :
    LineRespells (l ++ " " ++ l') (m ++ " " ++ m') := by
  refine ⟨(hl.append_space hl').toPlainLine, ?_⟩
  rw [hl.tokenize_append_space l' hl'.cut hl'.head?_any_isBlank,
    hm.tokenize_append_space m' hm'.cut hm'.head?_any_isBlank]
  exact List.rel_append h.tokens (.cons (Token.Respells.refl _) h'.tokens)

theorem LineRespells.ofLine_eq {l m : String} (h : LineRespells l m) :
    LineKind.ofLine m = LineKind.ofLine l := by
  have hsame := ofLine_respelled h.tokens
  rwa [spell_tokenize] at hsame

theorem LineRespells.eq_of_directive {l m : String} (h : LineRespells l m)
    (hline : LineKind.ofLine l = .directive) : m = l := by
  have hsame := spell_of_directive h.plain.no_break (head?_of_directive hline) h.tokens
  rwa [spell_tokenize] at hsame

/-- Respelled lines are merged into respelled segments. -/
theorem segments_respelled {ls ms : List String} (h : List.Forall₂ LineRespells ls ms)
    (hclosed : ∀ l ∈ ls, ∀ t ∈ tokenize l, t.danglesExponent = false) :
    List.Forall₂ Segment.Respells (segments ls) (segments ms) := by
  induction h with
  | nil => exact .nil
  | @cons l m ls ms hlm _ ih =>
    have hlater := ih fun k hk => hclosed k (List.mem_cons_of_mem _ hk)
    have hexp := hclosed l List.mem_cons_self
    have hsame := hlm.ofLine_eq
    unfold segments
    rw [hsame]
    cases hline : LineKind.ofLine l with
    | directive =>
      -- a directive is a segment of its own on both sides
      obtain rfl := hlm.eq_of_directive hline
      exact .cons (.directive hlm.plain) hlater
    | code =>
      rw [hline] at hsame
      have hl : CodeLine l := { hlm.plain with is_code := hline }
      have hm : CodeLine m := { hlm.plain_right with is_code := hsame }
      -- the line joins a run, or begins one
      generalize segments ls = later at hlater
      generalize segments ms = later' at hlater
      cases hlater with
      | nil => exact .cons (.code hl hm hlm hexp) .nil
      | cons hfirst hlater =>
        cases hfirst with
        | directive hplain => exact .cons (.code hl hm hlm hexp) (.cons (.directive hplain) hlater)
        | @code l' m' hl' hm' hlm' hexp' =>
          refine .cons ?_ hlater
          show Segment.Respells ⟨.code, l ++ " " ++ (l' ++ " ")⟩ ⟨.code, m ++ " " ++ (m' ++ " ")⟩
          rw [← String.append_assoc, ← String.append_assoc]
          refine .code (hl.append_space hl') (hm.append_space hm')
            (hlm.append_space hl hm hl' hm' hlm') fun t ht => ?_
          rw [hl.tokenize_append_space l' hl'.cut hl'.head?_any_isBlank, List.mem_append,
            List.mem_cons] at ht
          rcases ht with ht | rfl | ht
          · exact hexp t ht
          · rfl
          · exact hexp' t ht

/-- What comes out of respelled segments are respelled lines. -/
theorem Segment.Respells.narrowed {s t : Segment} (h : s.Respells t) :
    LineRespells s.narrowed t.narrowed := by
  cases h with
  | directive hplain => exact ⟨hplain, forall₂_respells_refl _⟩
  | @code l m hl hm hlm hclosed =>
    have hclosed' : ∀ t ∈ tokenize m, t.danglesExponent = false :=
      forall_of_forall₂ hlm.tokens
        (fun _ _ htu ht => by rwa [htu.danglesExponent_eq]) hclosed
    obtain ⟨hlexed, hcode⟩ := hl.narrowed (noLooseSign_of_forall hclosed)
    obtain ⟨hlexed', -⟩ := hm.narrowed (noLooseSign_of_forall hclosed')
    show LineRespells (collapseSpaces (l ++ " ")) (collapseSpaces (m ++ " "))
    rw [hl.collapseSpaces_append_blank, hm.collapseSpaces_append_blank]
    refine ⟨hcode.toPlainLine, ?_⟩
    rw [hlexed, hlexed']
    exact narrowTokens_respelled hlm.lexemes .none

/-! ## §3. Compacting respelled texts. -/

theorem tokenize_unlines_respelled {ls ms : List String} (h : List.Forall₂ LineRespells ls ms) :
    List.Forall₂ Token.Respells (tokenize (unlines ls)) (tokenize (unlines ms)) := by
  induction h with
  | nil => exact forall₂_respells_refl _
  | @cons l m ls ms hlm hrest ih =>
    cases hrest with
    | nil =>
      rw [unlines_singleton, unlines_singleton]
      exact hlm.tokens
    | cons _ _ =>
      rw [tokenize_unlines_cons hlm.plain, tokenize_unlines_cons hlm.plain_right]
      exact List.rel_append hlm.tokens (.cons (Token.Respells.refl _) ih)

theorem compactSource_unlines {ls : List String} (h : ∀ l ∈ ls, PlainLine l)
    (hnarrowed : ∀ piece ∈ (segments ls).map Segment.narrowed, PlainLine piece) :
    compactSource "\n" (unlines ls) = unlines ((segments ls).map Segment.narrowed) := by
  rw [compactSource_eq, trimLines_lines_unlines (fun l hl => (h l hl).trimmed)
      fun l hl => (h l hl).no_break,
    joinTrimmed_newline fun piece hpiece => (hnarrowed piece hpiece).trimmed]

/-- Compacting a respelled text of plain lines respells the compacted text. -/
theorem tokenize_compactSource_respelled {ls : List String} (hplain : ∀ l ∈ ls, PlainLine l)
    (hexp : ∀ t ∈ tokenize (unlines ls), t.danglesExponent = false) {us : List Token}
    (hrel : List.Forall₂ Token.Respells (tokenize (unlines ls)) us) :
    List.Forall₂ Token.Respells (tokenize (compactSource "\n" (unlines ls)))
      (tokenize (compactSource "\n" (Token.spell us))) := by
  obtain ⟨ms, hspell, hms, htokens⟩ := exists_respelled_lines hplain hrel
  have hlines : List.Forall₂ LineRespells ls ms :=
    (List.forall₂_and_left _ _).2 ⟨hplain, htokens⟩ |>.imp fun _ _ h => ⟨h.1, h.2⟩
  have hsegments := segments_respelled hlines fun l hl t ht =>
    hexp t (mem_tokenize_unlines hplain hl ht)
  have hpieces : List.Forall₂ LineRespells ((segments ls).map Segment.narrowed)
      ((segments ms).map Segment.narrowed) :=
    List.rel_map (fun _ _ h => h.narrowed) hsegments
  -- lines come out on both sides, and what is respelled line by line is respelled
  rw [hspell, compactSource_unlines hplain, compactSource_unlines hms]
  · exact tokenize_unlines_respelled hpieces
  · exact forall_of_forall₂ hpieces (fun _ _ h _ => h.plain_right) fun _ _ => trivial
  · exact forall_of_forall₂ hpieces.flip (fun _ _ h _ => h.plain) fun _ _ => trivial

/-- Compacting a respelled text of plain lines keeps its tokens that carry meaning. -/
theorem significant_compactSource_respelled {ls : List String} (hplain : ∀ l ∈ ls, PlainLine l)
    (hexp : ∀ t ∈ tokenize (unlines ls), t.danglesExponent = false) {us : List Token}
    (hrel : List.Forall₂ Token.Respells (tokenize (unlines ls)) us) :
    Token.significant (tokenize (compactSource "\n" (Token.spell us)))
      = Token.significant us := by
  rw [← map_fst_joinedSigns, joinedSigns_compactSource_respelled hplain hexp hrel,
    map_fst_joinedSigns]

/-! ## §4. Renaming and compacting. -/

section Commute

variable {ls : List String} (hplain : ∀ l ∈ ls, PlainLine l)
  (hexp : ∀ t ∈ tokenize (unlines ls), t.danglesExponent = false)

include hplain hexp

/-- Compacting does not change what a survey finds. -/
theorem survey_compactSource :
    Survey.ofText (compactSource "\n" (unlines ls)) = Survey.ofText (unlines ls) := by
  apply survey_eq_of_significant
  have hsame := significant_compactSource_respelled hplain hexp
    (forall₂_respells_refl (tokenize (unlines ls)))
  rwa [spell_tokenize] at hsame

/-- Respelling a compacted text is compacting a respelled text. -/
theorem compactSource_spell_respell {spelling? : String → Option String}
    (hspell : SpellsIdentifiers spelling?) :
    compactSource "\n" (Token.spell (respell spelling? (tokenize (unlines ls))))
      = Token.spell (respell spelling? (tokenize (compactSource "\n" (unlines ls)))) := by
  have hrel := respells_respell hspell (tokenize (unlines ls))
  -- both are respellings of the compacted text
  have hcompacted := tokenize_compactSource_respelled hplain hexp hrel
  have hrespelled := respells_respell hspell (tokenize (compactSource "\n" (unlines ls)))
  -- and they agree on what carries meaning
  have hkept := significant_compactSource_respelled hplain hexp
    (forall₂_respells_refl (tokenize (unlines ls)))
  rw [spell_tokenize] at hkept
  have hsame : Token.significant (tokenize (compactSource "\n"
        (Token.spell (respell spelling? (tokenize (unlines ls))))))
      = Token.significant (respell spelling? (tokenize (compactSource "\n" (unlines ls)))) := by
    rw [significant_compactSource_respelled hplain hexp hrel, significant_respell,
      significant_respell, hkept]
  rw [← eq_of_respells_of_significant hcompacted hrespelled hsame, spell_tokenize]

/-- Renaming a compacted text gives the aliases of the text, and its compacted renaming. -/
theorem renameIdentifiers_compactSource (filter : Filter) :
    (renameIdentifiers filter (compactSource "\n" (unlines ls))).table
        = (renameIdentifiers filter (unlines ls)).table
      ∧ (renameIdentifiers filter (compactSource "\n" (unlines ls))).content
        = compactSource "\n" (renameIdentifiers filter (unlines ls)).content := by
  have htable : (renameIdentifiers filter (compactSource "\n" (unlines ls))).table
      = (renameIdentifiers filter (unlines ls)).table := by
    unfold renameIdentifiers
    rw [survey_compactSource hplain hexp]
  refine ⟨htable, ?_⟩
  show (renameIdentifiers filter (compactSource "\n" (unlines ls))).table.respellText _ = _
  rw [htable]
  exact (compactSource_spell_respell hplain hexp
    (spellsIdentifiers_aliasTable (Survey.ofText (unlines ls)) filter)).symm

end Commute

/-- **Renaming commutes with compacting**: minifying with renaming is minifying without it,
    and renaming what comes out under the same filter. -/
theorem minify_eq_rename_compacted (options : Options) (plugins : List Filter) (text : String)
    (hblock : ¬ ['/', '*'] <:+: (strippedSource text).toList)
    (hexp : ∀ t ∈ tokenize (strippedSource text), t.danglesExponent = false) :
    minify { options with rename := some true, escapeNewlines := some false } plugins text
        = (minify { options with rename := some false, escapeNewlines := some false }
            plugins text).map (fun plain =>
          let renamed := renameIdentifiers (options.filter plugins) plain.content
          ⟨renamed.content, renamed.table.pairs⟩)
      ∧ ((∀ name ∈ options.preserveNames, isIdentifier name = true) →
        ∃ plain, minify { options with rename := some false, escapeNewlines := some false }
          plugins text = .ok plain) := by
  constructor
  · -- neither setting decides whether a name is invalid
    have hinvalid (rename : Bool) : Options.invalidName?
        { options with rename := some rename, escapeNewlines := some false }
          = options.invalidName? := rfl
    unfold minify
    rw [hinvalid, hinvalid]
    cases options.invalidName? with
    | some e => rfl
    | none =>
      obtain ⟨htable, hcontent⟩ := renameIdentifiers_compactSource
        (plainLine_of_strippedSource hblock) hexp (options.filter plugins)
      show Except.ok (Minified.mk (compactSource "\n"
            (renameIdentifiers (options.filter plugins) (strippedSource text)).content)
            (renameIdentifiers (options.filter plugins) (strippedSource text)).table.pairs)
        = Except.ok (Minified.mk
            (renameIdentifiers (options.filter plugins)
              (compactSource "\n" (strippedSource text))).content
            (renameIdentifiers (options.filter plugins)
              (compactSource "\n" (strippedSource text))).table.pairs)
      unfold strippedSource
      rw [htable, hcontent]
  · intro hnames
    obtain ⟨plain, hplain, -⟩ := exists_minify_eq
      { options with rename := some false, escapeNewlines := some false } plugins text hnames
    exact ⟨plain, hplain⟩

/-- A text whose lines and gaps change: `keep` is to be kept, and `sum` is renamed. -/
theorem minify_eq_rename_compacted_merged :
    minify ⟨some true, none, ["keep"], some false⟩ [] "#define F x\n int sum = keep ;\n sum++;"
        = (minify ⟨some false, none, ["keep"], some false⟩ []
            "#define F x\n int sum = keep ;\n sum++;").map (fun plain =>
          let renamed := renameIdentifiers (Options.filter ⟨none, none, ["keep"], none⟩ [])
            plain.content
          ⟨renamed.content, renamed.table.pairs⟩)
      ∧ ∃ plain, minify ⟨some false, none, ["keep"], some false⟩ []
          "#define F x\n int sum = keep ;\n sum++;" = .ok plain := by
  obtain ⟨hcommute, hok⟩ := minify_eq_rename_compacted ⟨none, none, ["keep"], none⟩ []
    "#define F x\n int sum = keep ;\n sum++;" (by decide +kernel) (by decide +kernel)
  exact ⟨hcommute, hok (by decide)⟩

end GlslMinifier
