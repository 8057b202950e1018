/-
  GlslMinifier.Proofs.Compaction.Growth — how much longer a minified text gets by renaming.

  The compaction drops the same gaps whatever the identifiers are, so a respelled text is
  longer after the compaction by just what it was longer before.  This holds for every
  source, also for one where a block comment is left open: what the comment takes in is
  the same on both sides.

  Main results:
    * `Reworded.growth_trim` — trimming takes the same white space off both texts
    * `growth_compactSource` — compacting keeps what a respelled text is longer
    * `minify_growth` — all passes together
-/
import GlslMinifier.Proofs.Compaction.Respelled
import GlslMinifier.Proofs.Renaming.Growth

namespace GlslMinifier

/-! ## §1. Words for words. -/

/-- Some word characters in a row, at least one. -/
def IsWord (cs : List Char) : Prop := cs ≠ [] ∧ ∀ c ∈ cs, isWordChar c = true

/-- The second text has words in the place of some words of the first, and is the same
    otherwise. -/
inductive Reworded : List Char → List Char → Prop
  | same (cs : List Char) : Reworded cs cs
  | word {cs ds : List Char} (hcs : IsWord cs) (hds : IsWord ds) : Reworded cs ds
  | append {cs ds cs' ds' : List Char} (first : Reworded cs ds) (later : Reworded cs' ds') :
    Reworded (cs ++ cs') (ds ++ ds')

theorem IsWord.reverse {cs : List Char} (h : IsWord cs) : IsWord cs.reverse :=
  ⟨by simpa using h.1, by simpa using h.2⟩

theorem IsWord.dropWhile {cs : List Char} (h : IsWord cs) :
    cs.dropWhile isWhiteSpace = cs := by
  obtain ⟨c, ds, hc⟩ := List.exists_cons_of_ne_nil h.1
  refine dropWhile_eq_self (c := c) (by rw [hc]; rfl) ?_
  exact isWhiteSpace_eq_false_of_isWordChar (h.2 c (by simp [hc]))

theorem isWord_of_isIdentifier {name : String} (h : isIdentifier name = true) :
    IsWord name.toList := by
  refine ⟨fun hnil => ?_, isWordChar_of_isIdentifier h⟩
  unfold isIdentifier at h
  rw [hnil] at h
  exact absurd h (by decide)

namespace Reworded

theorem eq_nil_iff {cs ds : List Char} (h : Reworded cs ds) : ds = [] ↔ cs = [] := by
  induction h with
  | same => exact Iff.rfl
  | word hcs hds => exact iff_of_false hds.1 hcs.1
  | append _ _ ih ih' => rw [List.append_eq_nil_iff, List.append_eq_nil_iff, ih, ih']

theorem reverse {cs ds : List Char} (h : Reworded cs ds) : Reworded cs.reverse ds.reverse := by
  induction h with
  | same cs => exact .same _
  | word hcs hds => exact .word hcs.reverse hds.reverse
  | append _ _ ih ih' =>
    rw [List.reverse_append, List.reverse_append]
    exact .append ih' ih

/-- The same white space stands at the front. -/
theorem dropWhile {cs ds : List Char} (h : Reworded cs ds) :
    Reworded (cs.dropWhile isWhiteSpace) (ds.dropWhile isWhiteSpace)
      ∧ growth (String.ofList (cs.dropWhile isWhiteSpace))
          (String.ofList (ds.dropWhile isWhiteSpace))
        = growth (String.ofList cs) (String.ofList ds) := by
  induction h with
  | same => exact ⟨.same _, by rw [growth_self, growth_self]⟩
  | word hcs hds =>
    rw [hcs.dropWhile, hds.dropWhile]
    exact ⟨.word hcs hds, rfl⟩
  | @append cs ds cs' ds' _ hlater ih ih' =>
    obtain ⟨hfirst, hgrowth⟩ := ih
    obtain ⟨hlater', hgrowth'⟩ := ih'
    simp only [List.dropWhile_append, List.isEmpty_iff, hfirst.eq_nil_iff]
    rw [String.ofList_append, String.ofList_append, growth_append]
    -- either all of the first part goes on both sides, or its rest stays on both
    by_cases hnil : cs.dropWhile isWhiteSpace = []
    · have hnone : growth (String.ofList cs) (String.ofList ds) = 0 := by
        rw [← hgrowth, hnil, hfirst.eq_nil_iff.2 hnil, growth_self]
      rw [if_pos hnil, if_pos hnil, hgrowth', hnone, Int.zero_add]
      exact ⟨hlater', rfl⟩
    · rw [if_neg hnil, if_neg hnil, String.ofList_append, String.ofList_append, growth_append,
        hgrowth]
      exact ⟨.append hfirst hlater, rfl⟩

end Reworded

theorem growth_ofList_reverse (cs ds : List Char) :
    growth (String.ofList cs.reverse) (String.ofList ds.reverse)
      = growth (String.ofList cs) (String.ofList ds) := by
  simp only [growth, String.utf8ByteSize_ofList, String.utf8Len_reverse]

/-- **Trimming takes the same white space off both texts.** -/
theorem Reworded.growth_trim {a b : String} (h : Reworded a.toList b.toList) :
    growth (trim a) (trim b) = growth a b := by
  obtain ⟨hfront, hgrowth⟩ := h.dropWhile
  obtain ⟨-, hgrowth'⟩ := hfront.reverse.dropWhile
  rw [trim, trim, trimEnd, trimEnd, growth_ofList_reverse, hgrowth', growth_ofList_reverse,
    hgrowth, String.ofList_toList, String.ofList_toList]

theorem reworded_intercalate (separator : String) {as bs : List String}
    (h : List.Forall₂ (fun a b => Reworded a.toList b.toList) as bs) :
    Reworded (separator.intercalate as).toList (separator.intercalate bs).toList := by
  induction h with
  | nil => exact .same _
  | @cons a b as bs hab hrest ih =>
    cases hrest with
    | nil =>
      rw [String.intercalate_singleton, String.intercalate_singleton]
      exact hab
    | cons _ _ =>
      rw [String.intercalate_cons_cons, String.intercalate_cons_cons]
      simp only [String.toList_append] at ih ⊢
      exact .append (.append hab (.same _)) ih

theorem growth_intercalate (separator : String) {as bs : List String}
    (h : as.length = bs.length) :
    growth (separator.intercalate as) (separator.intercalate bs)
      = growth (String.join as) (String.join bs) := by
  induction as generalizing bs with
  | nil =>
    obtain rfl := List.length_eq_zero_iff.1 h.symm
    rw [growth_self, growth_self]
  | cons a as ih =>
    obtain ⟨b, bs, rfl⟩ := List.exists_cons_of_length_eq_add_one h.symm
    have hlater := Nat.succ.inj h
    rw [String.join_cons, String.join_cons, growth_append, ← ih hlater]
    cases as with
    | nil =>
      obtain rfl := List.length_eq_zero_iff.1 hlater.symm
      rw [String.intercalate_singleton, String.intercalate_singleton, String.intercalate_nil,
        growth_self, Int.add_zero]
    | cons c as =>
      obtain ⟨d, bs, rfl⟩ := List.exists_cons_of_length_eq_add_one hlater.symm
      rw [String.intercalate_cons_cons, String.intercalate_cons_cons, growth_append,
        growth_append, growth_self, Int.add_zero]

/-! ## §2. Narrowing respelled tokens. -/

theorem Token.RespellsLexeme.reworded {t u : Token} (h : t.RespellsLexeme u) :
    Reworded t.text.toList u.text.toList := by
  obtain ⟨hrel, start, hshape⟩ := h
  rcases hrel with rfl | ⟨hkind, -, htext⟩
  · exact .same _
  · unfold Token.WellShaped at hshape
    rw [hkind] at hshape
    exact .word (isWord_of_isIdentifier ((isIdentifier_iff_shape start).2 hshape))
      (isWord_of_isIdentifier htext)

theorem reworded_spell {ts us : List Token} (h : List.Forall₂ Token.RespellsLexeme ts us) :
    Reworded (Token.spell ts).toList (Token.spell us).toList := by
  induction h with
  | nil => exact .same _
  | cons htu _ ih =>
    rw [Token.spell_cons, Token.spell_cons, String.toList_append, String.toList_append]
    exact .append htu.reworded ih

/-- What is left of a gap does not depend on the identifiers beside it. -/
theorem growth_narrowTokens {ts us : List Token} (h : List.Forall₂ Token.RespellsLexeme ts us)
    {left? left'? : Option Token} (hleft : Option.Rel Token.RespellsLexeme left? left'?) :
    growth (Token.spell (narrowTokens left? ts)) (Token.spell (narrowTokens left'? us))
      = growth (Token.spell ts) (Token.spell us) := by
  induction h generalizing left? left'? with
  | nil => rfl
  | @cons t u ts us htu hrest ih =>
    have hnext : Option.Rel Token.RespellsLexeme ts.head? us.head? := by
      cases hrest with
      | nil => exact .none
      | cons hnext _ => exact .some hnext
    rw [Token.spell_cons, Token.spell_cons, growth_append, ← ih (.some htu)]
    by_cases hgap : t.isGap = true
    · -- a gap is no identifier, and of it the same is left
      have hkind : t.kind ≠ .identifier := fun hword => by
        rcases isGap_iff.1 hgap with hblank | hblank <;> simp [hword] at hblank
      obtain rfl : u = t := htu.1.resolve_right fun hword => hkind hword.1
      rw [narrowTokens_gap hgap, narrowTokens_gap hgap, Token.spell_append, Token.spell_append,
        growth_append, spell_gapTokens, spell_gapTokens, gapBetween_respelled hleft hnext,
        growth_self, growth_self]
    · rw [Bool.not_eq_true] at hgap
      rw [narrowTokens_keep hgap, narrowTokens_keep (htu.1.isGap_eq.trans hgap),
        Token.spell_cons, Token.spell_cons, growth_append]

/-! ## §3. Compacting a respelled text. -/

/-- What comes out of respelled segments differs in its words, and by as much as the
    segments do. -/
theorem Segment.Rewords.narrowed {s t : Segment} (h : s.Rewords t) :
    Reworded s.narrowed.toList t.narrowed.toList
      ∧ growth s.narrowed t.narrowed = growth s.text t.text := by
  obtain ⟨kind, text⟩ := s
  obtain ⟨kind', text'⟩ := t
  obtain rfl : kind' = kind := h.kind
  have hlexemes := respellsLexeme_of_respells (fun _ => wellShaped_of_mem_tokenize) h.tokens
  cases kind' with
  | directive =>
    have hwords := reworded_spell hlexemes
    rw [spell_tokenize, spell_tokenize] at hwords
    exact ⟨hwords, rfl⟩
  | code =>
    show Reworded (collapseSpaces text).toList (collapseSpaces text').toList
      ∧ growth (collapseSpaces text) (collapseSpaces text') = growth text text'
    rw [collapseSpaces_eq, collapseSpaces_eq, growth_narrowTokens hlexemes .none, spell_tokenize,
      spell_tokenize]
    refine ⟨reworded_spell (respellsLexeme_of_respells (fun t ht => ?_)
      (narrowTokens_respelled hlexemes .none)), rfl⟩
    rcases mem_narrowTokens ht with rfl | ht
    · exact ⟨false, Token.space_wellShaped false⟩
    · exact wellShaped_of_mem_tokenize ht

/-- Merging lines adds a space after each code line, on both sides the same. -/
theorem growth_join_segments {ls ms : List String} (h : List.Forall₂ KeepsRole ls ms) :
    growth (String.join ((segments ls).map (·.text))) (String.join ((segments ms).map (·.text)))
      = growth (String.join ls) (String.join ms) := by
  induction h with
  | nil => rfl
  | @cons l m ls ms hlm _ ih =>
    rw [String.join_cons, String.join_cons, growth_append, ← ih]
    cases hline : LineKind.ofLine l with
    | directive =>
      rw [segments_cons_directive hline, segments_cons_directive (hlm.kind.trans hline),
        List.map_cons, List.map_cons, String.join_cons, String.join_cons, growth_append]
    | code =>
      rw [segments_cons_code hline, segments_cons_code (hlm.kind.trans hline),
        List.map_cons, List.map_cons, String.join_cons, String.join_cons,
        join_firstRun (segments ls), join_firstRun (segments ms)]
      simp only [growth_append, growth_self]
      omega

theorem growth_join_narrowed {segs segs' : List Segment}
    (h : List.Forall₂ Segment.Rewords segs segs') :
    growth (String.join (segs.map Segment.narrowed)) (String.join (segs'.map Segment.narrowed))
      = growth (String.join (segs.map (·.text))) (String.join (segs'.map (·.text))) := by
  induction h with
  | nil => rfl
  | cons hst _ ih =>
    simp only [List.map_cons, String.join_cons, growth_append, ih, hst.narrowed.2]

/-- **Compacting keeps what a respelled text is longer**, whatever stands between the lines
    that come out. -/
theorem growth_compactSource {ls ms : List String} (h : LinesRespelled ls ms)
    (hls : ∀ l ∈ ls, StrippedLine l) (separator : String) :
    growth (compactSource separator (unlines ls)) (compactSource separator (unlines ms))
      = growth (unlines ls) (unlines ms) := by
  have hroles := h.keepsRole (fun l hl => (hls l hl).trimmed) fun l hl => (hls l hl).no_break
  have hms : ∀ m ∈ ms, IsTrimmed m ∧ '\n' ∉ m.toList :=
    forall_of_forall₂ hroles (fun _ _ hlm _ => ⟨hlm.trimmed, hlm.no_break⟩) fun _ _ => trivial
  obtain ⟨hsegments, -⟩ := h.segments hls
  have hpieces : List.Forall₂ (fun a b : String => Reworded a.toList b.toList)
      ((segments ls).map Segment.narrowed) ((segments ms).map Segment.narrowed) :=
    List.rel_map (fun _ _ hst => hst.narrowed.1) hsegments
  rw [compactSource_eq, compactSource_eq,
    trimLines_lines_unlines (fun l hl => (hls l hl).trimmed) fun l hl => (hls l hl).no_break,
    trimLines_lines_unlines (fun m hm => (hms m hm).1) fun m hm => (hms m hm).2]
  calc growth (joinTrimmed separator ((segments ls).map Segment.narrowed))
        (joinTrimmed separator ((segments ms).map Segment.narrowed))
      = growth (separator.intercalate ((segments ls).map Segment.narrowed))
          (separator.intercalate ((segments ms).map Segment.narrowed)) :=
        (reworded_intercalate separator hpieces).growth_trim
    _ = growth (String.join ((segments ls).map Segment.narrowed))
          (String.join ((segments ms).map Segment.narrowed)) :=
        growth_intercalate separator hpieces.length_eq
    _ = growth (String.join ((segments ls).map (·.text)))
          (String.join ((segments ms).map (·.text))) := growth_join_narrowed hsegments
    _ = growth (String.join ls) (String.join ms) := growth_join_segments hroles
    _ = growth (unlines ls) (unlines ms) := (growth_intercalate "\n" hroles.length_eq).symm

/-- A stripped text with its names renamed is longer by the same after the compaction. -/
theorem growth_compactSource_content (filter : Filter) (text separator : String) :
    growth (compactSource separator (strippedSource text))
        (compactSource separator (renameIdentifiers filter (strippedSource text)).content)
      = growth (strippedSource text) (renameIdentifiers filter (strippedSource text)).content := by
  have hrel := respells_respell (spellsIdentifiers_aliasOf? filter (strippedSource text))
    (tokenize (strippedSource text))
  obtain ⟨ms, hms, hlines⟩ := exists_linesRespelled (stayOpen_stripped text) hrel
  have hcontent : (renameIdentifiers filter (strippedSource text)).content = unlines ms := hms
  rw [hcontent]
  exact growth_compactSource hlines (fun l hl => strippedLine_of_mem hl) separator

/-! ## §4. All passes together. -/

/-- **What renaming adds to a minified text**: at each rename site of a name, what its alias
    is longer.  So the text gets no longer when no alias is longer than its name, as when
    there are free words of one letter for all names that are renamed. -/
theorem minify_growth (options : Options) (plugins : List Filter) (text : String)
    (hnames : ∀ name ∈ options.preserveNames, isIdentifier name = true) :
    ∃ plain renamed, minify { options with rename := some false } plugins text = .ok plain
      ∧ minify { options with rename := some true } plugins text = .ok renamed
      ∧ growth plain.content renamed.content
        = (Survey.ofText (strippedSource text)).growthBy renamed.aliases
      ∧ ((∀ pair ∈ renamed.aliases, pair.2.utf8ByteSize ≤ pair.1.utf8ByteSize) →
        renamed.content.utf8ByteSize ≤ plain.content.utf8ByteSize)
      ∧ ∀ letters : List String, letters.Nodup →
        (∀ u ∈ letters, IsAliasWord u ∧ u.length = 1
          ∧ ¬ (Survey.ofText (strippedSource text)).IsReserved (options.filter plugins) u) →
        renamed.aliases.length ≤ letters.length →
        renamed.content.utf8ByteSize ≤ plain.content.utf8ByteSize := by
  have hplain : minify { options with rename := some false } plugins text
      = .ok ⟨compactSource options.separator (strippedSource text), []⟩ :=
    minify_of_not_renames plugins text hnames rfl
  have hrenamed : minify { options with rename := some true } plugins text
      = .ok ⟨compactSource options.separator
            (renameIdentifiers (options.filter plugins) (strippedSource text)).content,
          (renameIdentifiers (options.filter plugins) (strippedSource text)).table.pairs⟩ :=
    minify_of_renames plugins text hnames rfl
  have hgrowth := (growth_compactSource_content (options.filter plugins) text
    options.separator).trans (growth_content (options.filter plugins) (strippedSource text))
  have hshort (h : ∀ pair ∈
      (renameIdentifiers (options.filter plugins) (strippedSource text)).table.pairs,
      pair.2.utf8ByteSize ≤ pair.1.utf8ByteSize) :=
    growth_nonpos_iff.1 (hgrowth ▸ Survey.growthBy_nonpos h)
  exact ⟨_, _, hplain, hrenamed, hgrowth, hshort, fun letters hnodup hletters hcount =>
    hshort (alias_not_longer hnodup hletters hcount)⟩

/-- A name of two letters, which a comment that is left open spells once more, and a name of
    one letter; the first letter of the alphabet is taken. -/
theorem minify_growth_open_comment :
    let text := "#define a\nfloat xs, y ;\nxs = y; /* xs "
    (∀ name ∈ ["keep"], isIdentifier name = true)
      ∧ ∃ plain renamed,
        minify ⟨some false, none, ["keep"], some false⟩ [] text = .ok plain
          ∧ minify ⟨some true, none, ["keep"], some false⟩ [] text = .ok renamed
          ∧ growth plain.content renamed.content = -2
          ∧ renamed.content.utf8ByteSize ≤ plain.content.utf8ByteSize := by
  intro text
  refine ⟨by decide, ?_⟩
  obtain ⟨plain, renamed, hplain, hrenamed, hgrowth, -, hletters⟩ :=
    minify_growth ⟨none, none, ["keep"], some false⟩ [] text (by decide)
  have hrun : minify ⟨some true, none, ["keep"], some false⟩ [] text
      = .ok ⟨"#define a\nfloat b,c;b=c;/* xs", [("xs", "b"), ("y", "c")]⟩ := by
    decide +kernel
  have haliases : renamed.aliases = [("xs", "b"), ("y", "c")] := by
    obtain rfl := Except.ok.inj (hrenamed.symm.trans hrun)
    rfl
  have hfree : ∀ u ∈ ["b", "c"], u ∉ (Survey.ofText (strippedSource text)).reservedFor
      ((Survey.ofText (strippedSource text)).renamed
        (Options.filter ⟨none, none, ["keep"], some false⟩ [])) := by
    decide +kernel
  have hword : ∀ u ∈ ["b", "c"], u ≠ "" ∧ u.toList.all Char.isLower = true ∧ u.length = 1 := by
    decide
  refine ⟨plain, renamed, hplain, hrenamed, ?_, hletters ["b", "c"] (by decide) ?_ ?_⟩
  · rw [hgrowth, haliases]
    decide +kernel
  · intro u hu
    obtain ⟨hne, hlower, hone⟩ := hword u hu
    exact ⟨⟨hne, List.all_eq_true.1 hlower⟩, hone, fun hreserved =>
      hfree u hu (Survey.mem_reservedFor.2 hreserved)⟩
  · rw [haliases]
    decide

/-- With all letters taken by a preprocessor line, a name of one character gets an alias of
    two. -/
theorem minify_longer_renamed :
    let text := "#define X a b c d e f g h i j k l m n o p q r s t u v w x y z\nfloat _;"
    let plain := "#define X a b c d e f g h i j k l m n o p q r s t u v w x y z\\nfloat _;"
    let renamed := "#define X a b c d e f g h i j k l m n o p q r s t u v w x y z\\nfloat aa;"
    minify ⟨some false, none, [], none⟩ [] text = .ok ⟨plain, []⟩
      ∧ minify ⟨some true, none, [], none⟩ [] text = .ok ⟨renamed, [("_", "aa")]⟩
      ∧ plain.utf8ByteSize < renamed.utf8ByteSize := by
  decide +kernel

end GlslMinifier
