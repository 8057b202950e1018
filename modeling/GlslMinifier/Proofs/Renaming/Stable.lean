/-
  GlslMinifier.Proofs.Renaming.Stable — renaming what was renamed before.

  A renamed text protects what its source protected, spells the same names where respelling
  does not reach, and has each alias at as many rename sites as the name behind it.  So when
  the filter claims no alias, the second renaming meets the same reserved words and as many
  candidates as the first: the aliases.

  Main results:
    * `protectedNames_content` — the same names are protected
    * `getElem?_sites_content` — aliases have the rename sites of their names
    * `isReserved_content` — the same words are reserved
    * `renameIdentifiers_stable` — what the second renaming does
-/
import GlslMinifier.Proofs.Declaration
import GlslMinifier.Proofs.Renaming.Capture

namespace GlslMinifier

variable {filter : Filter} {text : String}

/-! ## §1. Names of the renamed text. -/

/-- Renaming respells no protected name, and no name as a protected one. -/
theorem respellsOutside_content (filter : Filter) (text : String) :
    List.Forall₂ (Token.RespellsOutside (Survey.ofText text).protectedNames.contains)
      (tokenize text) (tokenize (renameIdentifiers filter text).content) := by
  have htokens := occurrencesAfter_map_token none (tokenize text)
  rw [tokenize_content, respell, List.forall₂_map_right_iff]
  nth_rewrite 1 [← htokens]
  rw [List.forall₂_map_left_iff, occurrences, List.forall₂_same]
  intro o _
  refine ⟨o.respells_respell (spellsIdentifiers_aliasOf? filter text), ?_⟩
  rw [Occurrence.respell_eq]
  unfold Occurrence.spellingAfter
  by_cases hsite : o.isRenameSite = true
  · rw [if_pos hsite]
    cases halias : aliasOf? filter text o.token.text with
    | none => exact .inl rfl
    | some spelling =>
      obtain ⟨-, -, hold, -⟩ := isCandidate_of_alias halias
      exact .inr ⟨hold,
        contains_eq_false (isAliasWord_of_alias halias) (not_isReserved_of_alias halias)⟩
  · rw [if_neg hsite]
    exact .inl rfl

/-- The renamed text protects the same names. -/
theorem protectedNames_content (filter : Filter) (text : String) :
    (Survey.ofText (renameIdentifiers filter text).content).protectedNames
      = (Survey.ofText text).protectedNames :=
  protectedNames_respelled (respellsOutside_content filter text)

/-- Names of the renamed text, at identifiers that are told by their role. -/
theorem namesWhere_content {role : Occurrence → Bool}
    (hrole : ∀ o p : Occurrence, p.isRenameSite = o.isRenameSite → p.isMember = o.isMember →
      role p = role o) :
    Survey.namesWhere role (tokenize (renameIdentifiers filter text).content)
      = ((occurrences (tokenize text)).filter fun o => o.token.isIdentifier && role o).map
          (·.spellingAfter (aliasOf? filter text)) := by
  rw [tokenize_content, Survey.namesWhere]
  refine map_filter_of_forall₂ (occurrences_respell (spellsIdentifiers_aliasOf? filter text) _)
    (fun o p hop => ?_) fun o p hop _ => ?_
  · obtain ⟨htoken, hsite, hmember⟩ := hop
    rw [hrole o p hsite hmember, htoken, Occurrence.respell_eq]
    rfl
  · rw [hop.1, Occurrence.respell_eq]

/-- The spelling of a name after the renaming. -/
def newName (filter : Filter) (text name : String) : String :=
  (aliasOf? filter text name).getD name

/-- At rename sites of the renamed text stand the new spellings. -/
theorem siteNames_content (filter : Filter) (text : String) :
    Survey.namesWhere (·.isRenameSite) (tokenize (renameIdentifiers filter text).content)
      = (Survey.namesWhere (·.isRenameSite) (tokenize text)).map (newName filter text) := by
  rw [namesWhere_content fun _ _ hsite _ => hsite, Survey.namesWhere, List.map_map]
  refine List.map_congr_left fun o ho => ?_
  have hsite := (Bool.and_eq_true_iff.1 (List.mem_filter.1 ho).2).2
  rw [Occurrence.spellingAfter, if_pos hsite]
  rfl

/-- Where respelling does not reach, the renamed text spells the same names. -/
theorem fixed_content (filter : Filter) (text : String) :
    (Survey.ofText (renameIdentifiers filter text).content).fixed
      = (Survey.ofText text).fixed := by
  have hrole : ∀ o p : Occurrence, p.isRenameSite = o.isRenameSite → p.isMember = o.isMember →
      (!p.isRenameSite && !p.isMember) = (!o.isRenameSite && !o.isMember) := by
    intro o p hsite hmember
    rw [hsite, hmember]
  show NameSet.ofNames (Survey.namesWhere _ _) = NameSet.ofNames (Survey.namesWhere _ _)
  rw [namesWhere_content hrole, Survey.namesWhere]
  refine congrArg NameSet.ofNames (List.map_congr_left fun o ho => ?_)
  have hsite : o.isRenameSite = false := by
    have hboth := (Bool.and_eq_true_iff.1 (List.mem_filter.1 ho).2).2
    simpa using (Bool.and_eq_true_iff.1 hboth).1
  rw [Occurrence.spellingAfter, if_neg (by simp [hsite])]

theorem mem_used_content {w : String} :
    w ∈ (Survey.ofText (renameIdentifiers filter text).content).used
      ↔ ∃ o ∈ occurrences (tokenize text), o.token.isIdentifier = true ∧ o.isMember = false
        ∧ o.spellingAfter (aliasOf? filter text) = w := by
  have hrole : ∀ o p : Occurrence, p.isRenameSite = o.isRenameSite → p.isMember = o.isMember →
      (!p.isMember) = !o.isMember := by
    intro o p _ hmember
    rw [hmember]
  show w ∈ NameSet.ofNames (Survey.namesWhere _ _) ↔ _
  rw [NameSet.mem_ofNames, namesWhere_content hrole, List.mem_map]
  simp only [List.mem_filter, Bool.and_eq_true, Bool.not_eq_true', and_assoc]

/-- A name that the renamed text spells without it being an alias was spelled before. -/
theorem isReserved_of_used_content {w : String}
    (hused : w ∈ (Survey.ofText (renameIdentifiers filter text).content).used)
    (hnot : ¬ ∃ name, aliasOf? filter text name = some w) :
    (Survey.ofText text).IsReserved filter w := by
  obtain ⟨o, ho, hkind, hmember, rfl⟩ := mem_used_content.1 hused
  -- the token survived the renaming, for no alias is spelled here
  have hsurvives : o.Survives filter text := by
    refine ⟨hkind, hmember, fun hsite => ?_⟩
    cases halias : aliasOf? filter text o.token.text with
    | none => rfl
    | some spelling =>
      refine absurd ⟨o.token.text, ?_⟩ hnot
      rw [Occurrence.spellingAfter, if_pos hsite, halias]
      rfl
  have hsame : o.spellingAfter (aliasOf? filter text) = o.token.text := by
    unfold Occurrence.spellingAfter
    by_cases hsite : o.isRenameSite = true
    · rw [if_pos hsite, hsurvives.2.2 hsite]
      rfl
    · rw [if_neg hsite]
  rw [hsame]
  exact isReserved_of_survives ho hsurvives

/-- A name that is not renamed is still spelled, and is no alias. -/
theorem used_content_of_used {w : String} (hused : w ∈ (Survey.ofText text).used)
    (hnot : ¬ (Survey.ofText text).IsCandidate filter w) :
    w ∈ (Survey.ofText (renameIdentifiers filter text).content).used
      ∧ ¬ ∃ name, aliasOf? filter text name = some w := by
  constructor
  · obtain ⟨o, ho, hkind, hmember, rfl⟩ := Survey.mem_used_ofTokens.1 hused
    refine mem_used_content.2 ⟨o, ho, hkind, by simpa using hmember, ?_⟩
    have hnone : aliasOf? filter text o.token.text = none := by
      rw [Option.eq_none_iff_forall_ne_some]
      exact fun spelling halias => hnot (isCandidate_of_alias halias)
    unfold Occurrence.spellingAfter
    rw [hnone]
    exact ite_self _
  · intro halias
    obtain ⟨name, halias⟩ := halias
    exact not_isReserved_of_alias halias (.inr (.inr (.inl ⟨hused, hnot⟩)))

/-! ## §2. Rename sites. -/

/-- Names with rename sites are told apart by their new spellings. -/
theorem newName_inj {a b : String}
    (ha : a ∈ Survey.namesWhere (·.isRenameSite) (tokenize text))
    (hb : b ∈ Survey.namesWhere (·.isRenameSite) (tokenize text)) :
    newName filter text a = newName filter text b ↔ a = b := by
  obtain ⟨o, ho, -, hsite, rfl⟩ := Survey.mem_namesWhere.1 ha
  obtain ⟨p, hp, -, hsite', rfl⟩ := Survey.mem_namesWhere.1 hb
  exact aliasOf?_getD_inj ho hp hsite hsite'

theorem count_newName {name : String}
    (h : name ∈ Survey.namesWhere (·.isRenameSite) (tokenize text)) :
    ((Survey.namesWhere (·.isRenameSite) (tokenize text)).map (newName filter text)).count
        (newName filter text name)
      = (Survey.namesWhere (·.isRenameSite) (tokenize text)).count name := by
  unfold List.count
  rw [List.countP_map]
  refine List.countP_congr fun other hother => ?_
  rw [Function.comp_apply, beq_iff_eq, beq_iff_eq]
  exact newName_inj hother h

/-- A new spelling has the rename sites of the name behind it. -/
theorem getElem?_sites_content {w : String} {count : Nat} :
    (Survey.ofText (renameIdentifiers filter text).content).sites[w]? = some count
      ↔ ∃ name, (Survey.ofText text).sites[name]? = some count
        ∧ newName filter text name = w := by
  unfold Survey.ofText
  simp only [Survey.getElem?_sites_ofTokens, siteNames_content, Option.ite_none_right_eq_some,
    Option.some.injEq]
  constructor
  · intro h
    obtain ⟨hmem, hcount⟩ := h
    obtain ⟨name, hname, rfl⟩ := List.mem_map.1 hmem
    rw [count_newName hname] at hcount
    exact ⟨name, ⟨hname, hcount⟩, rfl⟩
  · intro h
    obtain ⟨name, ⟨hname, hcount⟩, rfl⟩ := h
    exact ⟨List.mem_map_of_mem hname, by rw [count_newName hname, hcount]⟩

/-! ## §3. The second renaming. -/

/-- The filter claims no alias at the number of rename sites that it will have. -/
def LeavesAliases (filter : Filter) (text : String) : Prop :=
  ∀ pair ∈ (renameIdentifiers filter text).table.pairs,
    ∀ count ∈ (Survey.ofText text).sites[pair.1]?, filter ⟨pair.2, count⟩ = false

section

variable (hfilter : LeavesAliases filter text)
include hfilter

/-- What the second renaming renames are the aliases. -/
theorem isCandidate_content_iff {w : String} :
    (Survey.ofText (renameIdentifiers filter text).content).IsCandidate filter w
      ↔ ∃ name, aliasOf? filter text name = some w := by
  unfold Survey.IsCandidate
  rw [protectedNames_content]
  constructor
  · intro h
    obtain ⟨count, hsites, hfree, hclaimed⟩ := h
    obtain ⟨name, hname, rfl⟩ := getElem?_sites_content.1 hsites
    unfold newName at hfree hclaimed ⊢
    cases halias : aliasOf? filter text name with
    | some spelling => exact ⟨name, halias⟩
    | none =>
      -- a name that is left over was claimed or protected, and is so now
      rw [halias] at hfree hclaimed
      exact absurd ⟨count, hname, hfree, hclaimed⟩ (not_isCandidate_of_no_alias halias)
  · intro h
    obtain ⟨name, halias⟩ := h
    obtain ⟨count, hname, -, -⟩ := isCandidate_of_alias halias
    refine ⟨count, getElem?_sites_content.2 ⟨name, hname, ?_⟩, ?_, ?_⟩
    · unfold newName
      rw [halias]
      rfl
    · exact contains_eq_false (isAliasWord_of_alias halias) (not_isReserved_of_alias halias)
    · exact hfilter (name, w) (AliasTable.mem_pairs.2 halias) count hname

/-- Both renamings reserve the same words. -/
theorem isReserved_content :
    (Survey.ofText (renameIdentifiers filter text).content).IsReserved filter
      = (Survey.ofText text).IsReserved filter := by
  funext w
  apply propext
  unfold Survey.IsReserved
  rw [protectedNames_content, fixed_content, isCandidate_content_iff hfilter]
  constructor
  · intro h
    rcases h with h | h | ⟨hused, hnot⟩ | h
    · exact .inl h
    · exact .inr (.inl h)
    · exact isReserved_of_used_content hused hnot
    · exact .inr (.inr (.inr h))
  · intro h
    rcases h with h | h | ⟨hused, hnot⟩ | h
    · exact .inl h
    · exact .inr (.inl h)
    · exact .inr (.inr (.inl (used_content_of_used hused hnot)))
    · exact .inr (.inr (.inr h))

/-- The second renaming renames the aliases of the first. -/
theorem mem_renamed_content_iff {w : String} :
    w ∈ (Survey.ofText (renameIdentifiers filter text).content).renamed filter
      ↔ w ∈ (Survey.ofText text).aliasWords filter := by
  rw [Survey.mem_renamed, isCandidate_content_iff hfilter, ← map_snd_pairs_aliasTable]
  constructor
  · intro h
    obtain ⟨name, halias⟩ := h
    exact List.mem_map_of_mem (AliasTable.mem_pairs.2 halias)
  · intro h
    obtain ⟨⟨name, spelling⟩, hpair, rfl⟩ := List.mem_map.1 h
    exact ⟨name, AliasTable.mem_pairs.1 hpair⟩

/-- It renames them to the same aliases. -/
theorem aliasWords_content :
    (Survey.ofText (renameIdentifiers filter text).content).aliasWords filter
      = (Survey.ofText text).aliasWords filter := by
  have hfirst := isFirstFree_aliasWords (Survey.ofText text) filter
  have hsecond := isFirstFree_aliasWords
    (Survey.ofText (renameIdentifiers filter text).content) filter
  rw [isReserved_content hfilter] at hsecond
  -- there are as many of them
  refine hsecond.eq_of_length_eq hfirst ?_
  rw [length_aliasWords]
  have hnames := AliasTable.nodup_of_ascending
    ((Survey.ofText (renameIdentifiers filter text).content).renamed_pairwise filter)
  exact ((List.perm_ext_iff_of_nodup hnames hfirst.nodup).2 fun w =>
    mem_renamed_content_iff hfilter).length_eq

/-- When the aliases have one length, each is renamed to itself. -/
theorem pairs_content (hlength : ∀ u ∈ (Survey.ofText text).aliasWords filter,
      ∀ v ∈ (Survey.ofText text).aliasWords filter, u.length = v.length) :
    ∀ pair ∈ ((Survey.ofText (renameIdentifiers filter text).content).aliasTable filter).pairs,
      pair.2 = pair.1 := by
  have hsorted := (isFirstFree_aliasWords (Survey.ofText text) filter).pairwise_lt hlength
  have hnames := (Survey.ofText (renameIdentifiers filter text).content).renamed_pairwise filter
  -- names and aliases are the same words in the same order
  have hsame : (Survey.ofText (renameIdentifiers filter text).content).renamed filter
      = (Survey.ofText text).aliasWords filter := by
    refine List.Perm.eq_of_pairwise (fun u v _ _ huv hvu => ?_) hnames hsorted
      ((List.perm_ext_iff_of_nodup (AliasTable.nodup_of_ascending hnames)
        (AliasTable.nodup_of_ascending hsorted)).2 fun w => mem_renamed_content_iff hfilter)
    exact absurd (List.lt_trans huv hvu) (List.lt_irrefl _)
  rw [pairs_aliasTable, hsame, aliasWords_content hfilter]
  intro pair hpair
  rw [List.zip_eq_zipWith, List.zipWith_self] at hpair
  obtain ⟨w, -, rfl⟩ := List.mem_map.1 hpair
  rfl

end

/-- A table that gives names themselves as aliases respells nothing. -/
theorem respellText_of_same {table : AliasTable} (h : ∀ pair ∈ table.pairs, pair.2 = pair.1)
    (text : String) : table.respellText text = text := by
  have hsame : ∀ o : Occurrence, o.respell (fun name => table.aliases[name]?) = o.token := by
    intro o
    rw [Occurrence.respell_eq, Occurrence.spellingAfter]
    cases halias : table.aliases[o.token.text]? with
    | none => simp
    | some spelling =>
      have hspelling : spelling = o.token.text := h _ (AliasTable.mem_pairs.2 halias)
      simp [hspelling]
  show Token.spell ((occurrences (tokenize text)).map _) = text
  rw [List.map_congr_left fun o _ => hsame o]
  exact (congrArg Token.spell (occurrencesAfter_map_token none _)).trans (spell_tokenize text)

/-- **Renaming is stable**: when the filter claims no alias, renaming the renamed text
    again renames the aliases among themselves; and when all of them have one length, it
    changes nothing. -/
theorem renameIdentifiers_stable (filter : Filter) (text : String)
    (hfilter : LeavesAliases filter text) :
    let first := renameIdentifiers filter text
    let second := renameIdentifiers filter first.content
    (∀ w, w ∈ second.table.pairs.map (·.1) ↔ w ∈ first.table.pairs.map (·.2))
      ∧ (∀ w, w ∈ second.table.pairs.map (·.2) ↔ w ∈ first.table.pairs.map (·.2))
      ∧ ((∀ u ∈ first.table.pairs.map (·.2), ∀ v ∈ first.table.pairs.map (·.2),
            u.length = v.length) →
          (∀ pair ∈ second.table.pairs, pair.2 = pair.1) ∧ second.content = first.content) := by
  intro first second
  have haliases : first.table.pairs.map (·.2) = (Survey.ofText text).aliasWords filter :=
    map_snd_pairs_aliasTable _ _
  have hnames : second.table.pairs.map (·.1)
      = (Survey.ofText first.content).renamed filter := map_fst_pairs_aliasTable _ _
  have haliases' : second.table.pairs.map (·.2)
      = (Survey.ofText first.content).aliasWords filter := map_snd_pairs_aliasTable _ _
  rw [haliases, hnames, haliases', aliasWords_content hfilter]
  refine ⟨fun w => mem_renamed_content_iff hfilter, fun w => Iff.rfl, fun hlength => ?_⟩
  have hpairs : ∀ pair ∈ second.table.pairs, pair.2 = pair.1 := pairs_content hfilter hlength
  exact ⟨hpairs, respellText_of_same hpairs first.content⟩

/-- The filter claims `d` for its three sites; `b` becomes `a`, and `c` becomes `b`. -/
theorem renameIdentifiers_stable_shifted :
    let filter := Filter.sitesAtLeast 3
    let first := renameIdentifiers filter "int b, c, d; d = d; c = b;"
    let second := renameIdentifiers filter first.content
    LeavesAliases filter "int b, c, d; d = d; c = b;"
      ∧ (∀ w, w ∈ second.table.pairs.map (·.1) ↔ w ∈ first.table.pairs.map (·.2))
      ∧ (∀ w, w ∈ second.table.pairs.map (·.2) ↔ w ∈ first.table.pairs.map (·.2))
      ∧ (∀ pair ∈ second.table.pairs, pair.2 = pair.1) ∧ second.content = first.content := by
  have hfilter : LeavesAliases (Filter.sitesAtLeast 3) "int b, c, d; d = d; c = b;" := by
    unfold LeavesAliases
    decide +kernel
  obtain ⟨hnames, haliases, hsame⟩ := renameIdentifiers_stable (Filter.sitesAtLeast 3)
    "int b, c, d; d = d; c = b;" hfilter
  exact ⟨hfilter, hnames, haliases, hsame (by decide +kernel)⟩

end GlslMinifier
