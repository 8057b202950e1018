/-
  GlslMinifier.Proofs.Preserved — what the preserved names of the options are kept from.

  The options hand their preserved names to the renaming as a filter, so such a name is
  never renamed.  Reserved are the names that the text spells and not those that the filter
  would claim, so a preserved name that the text does not spell may still be an alias.

  Main results:
    * `minify_preserves_names` — no preserved name is renamed, or taken while it is spelled
-/
import GlslMinifier.Proofs.Compaction.Tokens

namespace GlslMinifier

/-! ## §1. Renaming with preserved names. -/

theorem mem_preserveNames_claimed {options : Options} {plugins : List Filter} {name : String}
    (h : name ∈ options.preserveNames) (count : Nat) :
    options.filter plugins ⟨name, count⟩ = true := by
  unfold Options.filter Filter.anyOf
  rw [List.any_eq_true]
  refine ⟨Filter.preserve options.preserveNames, by simp, ?_⟩
  simpa [Filter.preserve] using h

/-- A preserved name is no candidate. -/
theorem not_isCandidate_of_mem_preserveNames {options : Options} {plugins : List Filter}
    {name : String} (h : name ∈ options.preserveNames) (s : Survey) :
    ¬ s.IsCandidate (options.filter plugins) name := by
  intro hcandidate
  obtain ⟨count, -, -, hclaimed⟩ := hcandidate
  rw [mem_preserveNames_claimed h count] at hclaimed
  exact absurd hclaimed (by decide)

/-- The pairs that a run lists are those of the renamed source, if it renames at all. -/
theorem exists_minify_aliases (options : Options) (plugins : List Filter) (text : String)
    (hnames : ∀ name ∈ options.preserveNames, isIdentifier name = true) :
    ∃ result, minify options plugins text = .ok result
      ∧ ∀ pair ∈ result.aliases,
        aliasOf? (options.filter plugins) (strippedSource text) pair.1 = some pair.2 := by
  cases hrenames : options.renames with
  | true =>
    exact ⟨_, minify_of_renames plugins text hnames hrenames, fun pair hpair =>
      AliasTable.mem_pairs.1 hpair⟩
  | false => exact ⟨_, minify_of_not_renames plugins text hnames hrenames, by simp⟩

/-- **No preserved name is renamed**, and none becomes an alias if it is protected or if the
    stripped source spells it anywhere but after a dot. -/
theorem minify_preserves_names (options : Options) (plugins : List Filter) (text : String)
    (hnames : ∀ name ∈ options.preserveNames, isIdentifier name = true) :
    ∃ result, minify options plugins text = .ok result
      ∧ ∀ pair ∈ result.aliases, pair.1 ∉ options.preserveNames
        ∧ (pair.2 ∈ options.preserveNames →
          (Survey.ofText (strippedSource text)).protectedNames.contains pair.2 = false
            ∧ ∀ o ∈ occurrences (tokenize (strippedSource text)),
              o.token.isIdentifier = true → o.token.text = pair.2 → o.isMember = true) := by
  obtain ⟨result, hresult, haliases⟩ := exists_minify_aliases options plugins text hnames
  refine ⟨result, hresult, fun pair hpair => ⟨?_, fun hmem => ⟨?_, ?_⟩⟩⟩
  · intro hmem
    exact not_isCandidate_of_mem_preserveNames hmem _ (isCandidate_of_alias (haliases pair hpair))
  · have halias := haliases pair hpair
    exact contains_eq_false (isAliasWord_of_alias halias) (not_isReserved_of_alias halias)
  · intro o ho hkind htext
    by_contra hmember
    rw [Bool.not_eq_true] at hmember
    -- a preserved name that is spelled here survives, and no alias is spelled like it
    refine alias_ne_of_survives ho ⟨hkind, hmember, fun _ => ?_⟩ (haliases pair hpair) htext.symm
    rw [Option.eq_none_iff_forall_ne_some]
    intro spelling halias
    rw [htext] at halias
    exact not_isCandidate_of_mem_preserveNames hmem _ (isCandidate_of_alias halias)

/-- Here `x` becomes `c`, which the text spells after a dot only. -/
theorem minify_preserves_names_member :
    ∃ result, minify ⟨none, none, ["a", "c"], none⟩ [] "float a, myVar, x; x = a.c;" = .ok result
      ∧ ∀ pair ∈ result.aliases, pair.1 ∉ ["a", "c"]
        ∧ (pair.2 ∈ ["a", "c"] →
          (Survey.ofText (strippedSource "float a, myVar, x; x = a.c;")).protectedNames.contains
              pair.2 = false
            ∧ ∀ o ∈ occurrences (tokenize (strippedSource "float a, myVar, x; x = a.c;")),
              o.token.isIdentifier = true → o.token.text = pair.2 → o.isMember = true) :=
  minify_preserves_names ⟨none, none, ["a", "c"], none⟩ [] "float a, myVar, x; x = a.c;"
    (by decide)

/-- A preserved name that the text does not spell becomes an alias. -/
theorem minify_takes_preserved_name :
    (∀ name ∈ ["a"], isIdentifier name = true)
      ∧ minify ⟨none, none, ["a"], none⟩ [] "float myVar;"
        = .ok ⟨"float a;", [("myVar", "a")]⟩ := by
  decide +kernel

end GlslMinifier
