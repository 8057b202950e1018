/-
  GlslMinifier.Proofs.Compaction.Tokens — what a minified text says.

  All passes together keep the tokens that carry meaning: stripping decides on a source,
  renaming respells identifiers of it in place, and the compaction only takes white space
  away.

  Main results:
    * `exists_minify_source` — a run compacts a respelling, with or without renaming
    * `minify_preserves_tokens` — the lexer finds the respelled tokens of the source
-/
import GlslMinifier.Proofs.Compaction.Segment
import GlslMinifier.Proofs.Renaming.Capture

namespace GlslMinifier

/-! ## §1. The content of a result. -/

/-- Without new spellings, nothing is respelled. -/
theorem respell_none (ts : List Token) : respell (fun _ => none) ts = ts := by
  rw [respell, occurrences]
  have hsame : ∀ o : Occurrence, o.respell (fun _ => none) = o.token := fun _ => rfl
  rw [List.map_congr_left fun o _ => hsame o]
  exact occurrencesAfter_map_token none ts

theorem invalidName?_eq_none {options : Options}
    (h : ∀ name ∈ options.preserveNames, isIdentifier name = true) :
    options.invalidName? = none := by
  unfold Options.invalidName?
  rw [Option.map_eq_none_iff, List.find?_eq_none]
  intro name hname
  simp [h name hname]

/-- Without escapes, lines of the result stand on lines of their own. -/
theorem separator_of_unescaped {options : Options} (h : options.escapeNewlines = some false) :
    options.separator = "\n" := by
  unfold Options.separator Options.escapes
  rw [h]
  rfl

/-- A run with renaming compacts the renamed source. -/
theorem minify_of_renames {options : Options} (plugins : List Filter) (text : String)
    (hnames : ∀ name ∈ options.preserveNames, isIdentifier name = true)
    (hrenames : options.renames = true) :
    minify options plugins text
      = .ok ⟨compactSource options.separator
            (renameIdentifiers (options.filter plugins) (strippedSource text)).content,
          (renameIdentifiers (options.filter plugins) (strippedSource text)).table.pairs⟩ := by
  unfold minify
  rw [invalidName?_eq_none hnames]
  simp only [hrenames, if_true]

/-- A run without renaming compacts the stripped source. -/
theorem minify_of_not_renames {options : Options} (plugins : List Filter) (text : String)
    (hnames : ∀ name ∈ options.preserveNames, isIdentifier name = true)
    (hrenames : options.renames = false) :
    minify options plugins text
      = .ok ⟨compactSource options.separator (strippedSource text), []⟩ := by
  unfold minify
  rw [invalidName?_eq_none hnames]
  simp only [hrenames, Bool.false_eq_true, if_false]

/-- A run with valid options compacts a respelling of the stripped source, where the new
    spellings are identifiers and are those that the result lists.  How line breaks are
    written has no part in either. -/
theorem exists_minify_source (options : Options) (plugins : List Filter) (text : String)
    (hnames : ∀ name ∈ options.preserveNames, isIdentifier name = true) :
    ∃ aliases : List (String × String), SpellsIdentifiers (fun name => aliases.lookup name)
      ∧ ∀ escape, minify { options with escapeNewlines := escape } plugins text
        = .ok ⟨compactSource (Options.separator { options with escapeNewlines := escape })
            (Token.spell (respell (fun name => aliases.lookup name)
              (tokenize (strippedSource text)))), aliases⟩ := by
  cases hrenames : options.renames with
  | true =>
    -- the listed pairs look names up as the table does
    have hlookup : (fun name => (renameIdentifiers (options.filter plugins)
        (strippedSource text)).table.pairs.lookup name)
          = aliasOf? (options.filter plugins) (strippedSource text) :=
      funext fun name => lookup_pairs _ name
    refine ⟨(renameIdentifiers (options.filter plugins) (strippedSource text)).table.pairs,
      ?_, fun escape => ?_⟩
    · rw [hlookup]
      exact spellsIdentifiers_aliasOf? _ _
    · rw [hlookup]
      exact minify_of_renames plugins text hnames hrenames
  | false =>
    -- with no pairs listed, respelling does nothing
    refine ⟨[], fun name spelling h => by simp at h, fun escape => ?_⟩
    show _ = Except.ok (Minified.mk (compactSource _ (Token.spell (respell (fun _ => none) _))) [])
    rw [respell_none, spell_tokenize]
    exact minify_of_not_renames plugins text hnames hrenames

/-- The content of a run with valid options. -/
theorem exists_minify_eq (options : Options) (plugins : List Filter) (text : String)
    (hnames : ∀ name ∈ options.preserveNames, isIdentifier name = true) :
    ∃ result, minify options plugins text = .ok result
      ∧ SpellsIdentifiers (fun name => result.aliases.lookup name)
      ∧ result.content = compactSource options.separator (Token.spell
          (respell (fun name => result.aliases.lookup name) (tokenize (strippedSource text)))) := by
  obtain ⟨aliases, hspell, hminify⟩ := exists_minify_source options plugins text hnames
  exact ⟨_, hminify options.escapeNewlines, hspell, rfl⟩

/-! ## §2. Doubled signs of a respelled text. -/

theorem Token.Respells.doubles_eq {t t' u u' : Token} (ht : t.Respells t')
    (hu : u.Respells u') : t'.doubles u' = t.doubles u := by
  unfold Token.doubles
  rw [ht.isPunctuation_eq, ht.isPunctuation_eq, hu.isPunctuation_eq, hu.isPunctuation_eq]

/-- Respelling joins no signs and takes none apart. -/
theorem joinedSigns_respelled {ts us : List Token} (h : List.Forall₂ Token.Respells ts us) :
    List.Forall₂ (fun p q => p.1.Respells q.1 ∧ q.2 = p.2) (joinedSigns ts)
      (joinedSigns us) := by
  induction h with
  | nil => exact .nil
  | @cons t u ts us htu hrest ih =>
    have hnext : us.head?.any u.doubles = ts.head?.any t.doubles := by
      cases hrest with
      | nil => rfl
      | cons hnext _ => exact htu.doubles_eq hnext
    rw [joinedSigns, joinedSigns, htu.isTrivia_eq]
    cases t.isTrivia with
    | true => exact ih
    | false => exact .cons ⟨htu, hnext⟩ ih

theorem significant_respelled {ts us : List Token} (h : List.Forall₂ Token.Respells ts us) :
    List.Forall₂ Token.Respells (Token.significant ts) (Token.significant us) := by
  rw [← map_fst_joinedSigns, ← map_fst_joinedSigns, List.forall₂_map_left_iff,
    List.forall₂_map_right_iff]
  exact (joinedSigns_respelled h).imp fun _ _ hpair => hpair.1

theorem flags_respelled {ts us : List Token} (h : List.Forall₂ Token.Respells ts us) :
    (joinedSigns us).map (·.2) = (joinedSigns ts).map (·.2) := by
  rw [← List.forall₂_eq_eq_eq, List.forall₂_map_left_iff, List.forall₂_map_right_iff]
  exact (joinedSigns_respelled h).flip.imp fun _ _ hpair => hpair.2

theorem getElem?_respelled {ts us : List Token} (h : List.Forall₂ Token.Respells ts us)
    {k : Nat} {t : Token} (ht : ts[k]? = some t) : ∃ u, us[k]? = some u ∧ t.Respells u := by
  induction h generalizing k with
  | nil => simp at ht
  | @cons t' u' ts us htu _ ih =>
    cases k with
    | zero =>
      obtain rfl : t' = t := by simpa using ht
      exact ⟨u', rfl, htu⟩
    | succ k => exact ih (by simpa using ht)

theorem DoubledAt.respelled {ts us : List Token} {k : Nat} (h : DoubledAt ts k)
    (hrel : List.Forall₂ Token.Respells ts us) : DoubledAt us k := by
  obtain ⟨t, u, ht, hu, hdoubles⟩ := h
  have hsig := significant_respelled hrel
  obtain ⟨t', ht', htt⟩ := getElem?_respelled hsig ht
  obtain ⟨u', hu', huu⟩ := getElem?_respelled hsig hu
  exact ⟨t', u', ht', hu', by rw [htt.doubles_eq huu, hdoubles]⟩

/-! ## §3. All passes together. -/

theorem Token.Respells.danglesExponent_eq {t u : Token} (h : t.Respells u) :
    u.danglesExponent = t.danglesExponent := by
  rcases h with rfl | ⟨ht, hu, -⟩
  · rfl
  · unfold Token.danglesExponent
    rw [ht, hu]
    rfl

/-- Compacting a respelled text of plain lines. -/
theorem joinedSigns_compactSource_respelled {ls : List String} (hplain : ∀ l ∈ ls, PlainLine l)
    (hexp : ∀ t ∈ tokenize (unlines ls), t.danglesExponent = false) {us : List Token}
    (hrel : List.Forall₂ Token.Respells (tokenize (unlines ls)) us) :
    joinedSigns (tokenize (compactSource "\n" (Token.spell us))) = joinedSigns us := by
  have htokens := ((cut_tokenize (unlines ls)).respelled hrel).tokenize_spell
  obtain ⟨ms, hspell, hms, -⟩ := exists_respelled_lines hplain hrel
  rw [hspell] at htokens ⊢
  -- respelling leaves numbers alone
  have hclosed : ∀ m ∈ ms, ∀ t ∈ tokenize m, t.danglesExponent = false := by
    intro m hm t ht
    have hus : ∀ u ∈ us, u.danglesExponent = false := forall_of_forall₂ hrel
      (fun _ _ htu ht => by rwa [htu.danglesExponent_eq]) hexp
    refine hus t ?_
    rw [← htokens]
    exact mem_tokenize_unlines hms hm ht
  rw [joinedSigns_compactSource hms hclosed, htokens]

/-- **A minified text has the tokens of its source**: those that carry meaning come out in
    order, rename sites under the aliases that the result lists and all others as they
    were, and equal signs in a row are adjacent just where they were adjacent before. -/
theorem minify_preserves_tokens (options : Options) (plugins : List Filter) (text : String)
    (hnames : ∀ name ∈ options.preserveNames, isIdentifier name = true)
    (hlines : options.escapeNewlines = some false)
    (hblock : ¬ ['/', '*'] <:+: (strippedSource text).toList)
    (hexp : ∀ t ∈ tokenize (strippedSource text), t.danglesExponent = false) :
    ∃ result, minify options plugins text = .ok result
      ∧ Token.significant (tokenize result.content)
        = Token.significant (respell (fun name => result.aliases.lookup name)
            (tokenize (strippedSource text)))
      ∧ ∀ k, DoubledAt (tokenize (strippedSource text)) k →
        (AdjacentAt (tokenize result.content) k
          ↔ AdjacentAt (tokenize (strippedSource text)) k) := by
  obtain ⟨result, hresult, hspell, hcontent⟩ := exists_minify_eq options plugins text hnames
  -- the compaction keeps the tokens and the doubled signs of the respelled source
  have hrel := respells_respell hspell (tokenize (strippedSource text))
  have hsigns : joinedSigns (tokenize result.content)
      = joinedSigns (respell (fun name => result.aliases.lookup name)
          (tokenize (strippedSource text))) := by
    rw [hcontent, separator_of_unescaped hlines]
    exact joinedSigns_compactSource_respelled (plainLine_of_strippedSource hblock) hexp hrel
  have hsignificant : Token.significant (tokenize result.content)
      = Token.significant (respell (fun name => result.aliases.lookup name)
          (tokenize (strippedSource text))) := by
    rw [← map_fst_joinedSigns, hsigns, map_fst_joinedSigns]
  -- on both sides, being adjacent is being joined
  refine ⟨result, hresult, hsignificant, fun k hk => ?_⟩
  have hdoubled : DoubledAt (tokenize result.content) k := by
    have hk' := hk.respelled hrel
    unfold DoubledAt at hk' ⊢
    rw [hsignificant]
    exact hk'
  rw [adjacentAt_iff hdoubled, adjacentAt_iff hk, hsigns, flags_respelled hrel]

/-- Two signs on neighbouring lines share a line afterwards, still with a space between
    them. -/
theorem minify_preserves_tokens_neighbouring_lines :
    ∃ result, minify ⟨some true, none, ["keep"], some false⟩ []
        "#define keep 3\n float x = keep + // sum\n +1e3;" = .ok result
      ∧ Token.significant (tokenize result.content)
        = Token.significant (respell (fun name => result.aliases.lookup name)
            (tokenize (strippedSource
              "#define keep 3\n float x = keep + // sum\n +1e3;")))
      ∧ ∀ k, DoubledAt (tokenize (strippedSource
            "#define keep 3\n float x = keep + // sum\n +1e3;")) k →
        (AdjacentAt (tokenize result.content) k
          ↔ AdjacentAt (tokenize (strippedSource
            "#define keep 3\n float x = keep + // sum\n +1e3;")) k) :=
  minify_preserves_tokens ⟨some true, none, ["keep"], some false⟩ []
    "#define keep 3\n float x = keep + // sum\n +1e3;"
    (by decide) rfl (by decide +kernel) (by decide +kernel)

end GlslMinifier
