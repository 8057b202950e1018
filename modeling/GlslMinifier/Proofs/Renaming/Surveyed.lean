/-
  GlslMinifier.Proofs.Renaming.Surveyed — surveying a renamed text.

  The searches of a survey look at words of the language, at punctuation and at names that
  they protect themselves.  A renaming touches none of these, so surveying the renamed
  text gives the survey of its source with the aliases in the place of the names: nothing
  is found that was not there, and nothing is lost.

  Main results:
    * `sites_content` — aliases take over the rename sites of their names
    * `used_content` — aliases take the place of the names among the names in use
    * `survey_renameIdentifiers` — surveying commutes with renaming
-/
import GlslMinifier.Proofs.Renaming.Stable

namespace GlslMinifier

/-! ## §1. Surveys with new names. -/

/-- The spelling that a table gives to a name: its alias, or the name itself if it has
    none. -/
def AliasTable.spellingOf (t : AliasTable) (name : String) : String :=
  t.aliases[name]?.getD name

/-- A survey as a renaming should leave it: protected names and names in fixed places stay,
    and everywhere else aliases stand for the names of the table. -/
def Survey.respelled (s : Survey) (t : AliasTable) : Survey where
  protectedNames := s.protectedNames
  sites := .ofList (s.sites.toList.map fun entry => (t.spellingOf entry.1, entry.2))
  used := (s.used \ .ofNames (t.pairs.map (·.1))) ∪ .ofNames (t.pairs.map (·.2)) ∪ s.fixed
  fixed := s.fixed

namespace AliasTable

variable {t : AliasTable}

theorem mem_map_fst_pairs {name : String} :
    name ∈ t.pairs.map (·.1) ↔ ∃ spelling, t.aliases[name]? = some spelling := by
  rw [List.mem_map]
  constructor
  · intro h
    obtain ⟨⟨old, spelling⟩, hpair, rfl⟩ := h
    exact ⟨spelling, mem_pairs.1 hpair⟩
  · intro h
    obtain ⟨spelling, halias⟩ := h
    exact ⟨(name, spelling), mem_pairs.2 halias, rfl⟩

theorem mem_map_snd_pairs {spelling : String} :
    spelling ∈ t.pairs.map (·.2) ↔ ∃ name : String, t.aliases[name]? = some spelling := by
  rw [List.mem_map]
  constructor
  · intro h
    obtain ⟨⟨name, new⟩, hpair, rfl⟩ := h
    exact ⟨name, mem_pairs.1 hpair⟩
  · intro h
    obtain ⟨name, halias⟩ := h
    exact ⟨(name, spelling), mem_pairs.2 halias, rfl⟩

end AliasTable

/-- A list with distinct keys is the map that it spells out. -/
theorem ofList_eq_of_mem_iff {entries : List (String × Nat)} {counts : NameMap Nat}
    (hkeys : (entries.map (·.1)).Nodup)
    (h : ∀ name count, (name, count) ∈ entries ↔ counts[name]? = some count) :
    Std.ExtTreeMap.ofList entries = counts := by
  have hdistinct : entries.Pairwise fun a b => ¬ compare a.1 b.1 = .eq := by
    refine (List.pairwise_map.1 hkeys).imp fun hne heq => hne ?_
    exact Std.LawfulEqCmp.compare_eq_iff_eq.1 heq
  refine Std.ExtTreeMap.ext_getElem? fun {name} => ?_
  cases hname : counts[name]? with
  | some count =>
    exact Std.ExtTreeMap.getElem?_ofList_of_mem Std.ReflCmp.compare_self hdistinct
      ((h name count).2 hname)
  | none =>
    refine Std.ExtTreeMap.getElem?_ofList_of_contains_eq_false ?_
    rw [← Bool.not_eq_true, List.contains_iff_mem, List.mem_map]
    intro hmem
    obtain ⟨⟨key, count⟩, hentry, rfl⟩ := hmem
    have hcount : counts[key]? = some count := (h key count).1 hentry
    rw [hcount] at hname
    cases hname

/-! ## §2. The survey of a renamed text. -/

variable {filter : Filter} {text : String}

/-- A name with rename sites stands at one of them. -/
theorem mem_namesWhere_of_sites {name : String} {count : Nat}
    (h : (Survey.ofText text).sites[name]? = some count) :
    name ∈ Survey.namesWhere (·.isRenameSite) (tokenize text) := by
  unfold Survey.ofText at h
  rw [Survey.getElem?_sites_ofTokens] at h
  by_contra hmem
  rw [if_neg hmem] at h
  cases h

/-- No two names with rename sites get one spelling. -/
theorem nodup_newName_sites (filter : Filter) (text : String) :
    ((Survey.ofText text).sites.toList.map
      ((renameIdentifiers filter text).table.spellingOf ·.1)).Nodup := by
  have hsites : ∀ entry ∈ (Survey.ofText text).sites.toList,
      entry.1 ∈ Survey.namesWhere (·.isRenameSite) (tokenize text) := fun entry hentry =>
    mem_namesWhere_of_sites (Std.ExtTreeMap.mem_toList_iff_getElem?_eq_some.1 hentry)
  refine List.pairwise_map.2 (List.Pairwise.imp_of_mem (fun {a b} ha hb hab => ?_)
    (Survey.ofText text).sites.ordered_keys_toList)
  intro heq
  -- equal spellings would come from one name, and names differ
  have hname : a.1 = b.1 := (newName_inj (hsites a ha) (hsites b hb)).1 heq
  rw [hname] at hab
  exact absurd (hab.symm.trans Std.ReflCmp.compare_self) (by decide)

/-- Aliases take over the rename sites of their names, site for site. -/
theorem sites_content (filter : Filter) (text : String) :
    (Survey.ofText (renameIdentifiers filter text).content).sites
      = ((Survey.ofText text).respelled (renameIdentifiers filter text).table).sites := by
  refine (ofList_eq_of_mem_iff ?_ fun name count => ?_).symm
  · rw [List.map_map]
    exact nodup_newName_sites filter text
  · rw [getElem?_sites_content, List.mem_map]
    constructor
    · intro h
      obtain ⟨⟨old, n⟩, hentry, heq⟩ := h
      obtain ⟨rfl, rfl⟩ := Prod.mk.inj heq
      exact ⟨old, Std.ExtTreeMap.mem_toList_iff_getElem?_eq_some.1 hentry, rfl⟩
    · intro h
      obtain ⟨old, hsites, rfl⟩ := h
      exact ⟨(old, count), Std.ExtTreeMap.mem_toList_iff_getElem?_eq_some.2 hsites, rfl⟩

/-- Every alias is spelled at a rename site of its name. -/
theorem mem_used_content_of_alias {name spelling : String}
    (h : aliasOf? filter text name = some spelling) :
    spelling ∈ (Survey.ofText (renameIdentifiers filter text).content).used := by
  obtain ⟨count, hsites, -⟩ := isCandidate_of_alias h
  obtain ⟨o, ho, hkind, hsite, rfl⟩ := Survey.mem_namesWhere.1 (mem_namesWhere_of_sites hsites)
  refine mem_used_content.2 ⟨o, ho, hkind, o.isMember_of_isRenameSite hsite, ?_⟩
  rw [Occurrence.spellingAfter, if_pos hsite, h]
  rfl

/-- Aliases take the place of their names among the names in use; a name that is called or
    stands after `#` stays in use besides. -/
theorem used_content (filter : Filter) (text : String) :
    (Survey.ofText (renameIdentifiers filter text).content).used
      = ((Survey.ofText text).respelled (renameIdentifiers filter text).table).used := by
  refine Std.ExtTreeSet.ext_mem fun {w} => ?_
  rw [Survey.respelled, Std.ExtTreeSet.mem_union_iff, Std.ExtTreeSet.mem_union_iff,
    Std.ExtTreeSet.mem_diff_iff, NameSet.mem_ofNames, NameSet.mem_ofNames,
    AliasTable.mem_map_fst_pairs, AliasTable.mem_map_snd_pairs]
  constructor
  · -- what is spelled is an alias, a name without one, or a name in a fixed place
    intro hw
    obtain ⟨o, ho, hkind, hmember, rfl⟩ := mem_used_content.1 hw
    unfold Occurrence.spellingAfter
    by_cases hsite : o.isRenameSite = true
    · rw [if_pos hsite]
      cases halias : aliasOf? filter text o.token.text with
      | some spelling => exact .inl (.inr ⟨o.token.text, halias⟩)
      | none =>
        refine .inl (.inl ⟨Survey.mem_used_ofTokens.2 ⟨o, ho, hkind, by simp [hmember], rfl⟩, ?_⟩)
        intro h
        obtain ⟨spelling, hspelling⟩ := h
        cases halias.symm.trans hspelling
    · rw [if_neg hsite]
      exact .inr (Survey.mem_fixed_ofTokens.2 ⟨o, ho, hkind, by simp [hsite, hmember], rfl⟩)
  · intro h
    rcases h with (⟨hused, hnot⟩ | ⟨name, halias⟩) | hfixed
    · -- a name without an alias is spelled as before
      obtain ⟨o, ho, hkind, hmember, rfl⟩ := Survey.mem_used_ofTokens.1 hused
      have hnone : aliasOf? filter text o.token.text = none := by
        rw [Option.eq_none_iff_forall_ne_some]
        exact fun spelling halias => hnot ⟨spelling, halias⟩
      refine mem_used_content.2 ⟨o, ho, hkind, by simpa using hmember, ?_⟩
      unfold Occurrence.spellingAfter
      rw [hnone]
      exact ite_self _
    · exact mem_used_content_of_alias halias
    · -- a fixed place is not respelled
      obtain ⟨o, ho, hkind, hrole, rfl⟩ := Survey.mem_fixed_ofTokens.1 hfixed
      simp only [Bool.and_eq_true, Bool.not_eq_true'] at hrole
      refine mem_used_content.2 ⟨o, ho, hkind, hrole.2, ?_⟩
      rw [Occurrence.spellingAfter, if_neg (by simp [hrole.1])]

/-- **Surveying commutes with renaming**: the survey of a renamed text is the survey of its
    source with aliases for names.  The six protected sets and the names in fixed places
    are the same, every count is kept, and no two names fall together. -/
theorem survey_renameIdentifiers (filter : Filter) (text : String) :
    let survey := Survey.ofText text
    let renamed := renameIdentifiers filter text
    Survey.ofText renamed.content = survey.respelled renamed.table
      ∧ (survey.sites.toList.map (renamed.table.spellingOf ·.1)).Nodup := by
  intro survey renamed
  refine ⟨?_, nodup_newName_sites filter text⟩
  have hprotected := protectedNames_content filter text
  have hfixed := fixed_content filter text
  have hsites := sites_content filter text
  have hused := used_content filter text
  -- field by field
  generalize hafter : Survey.ofText renamed.content = after
  rw [hafter] at hprotected hfixed hsites hused
  obtain ⟨protectedNames, sites, used, fixed⟩ := after
  rw [Survey.respelled, Survey.mk.injEq]
  exact ⟨hprotected, hsites, hused, hfixed⟩

end GlslMinifier
