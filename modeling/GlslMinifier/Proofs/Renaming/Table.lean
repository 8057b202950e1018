/-
  GlslMinifier.Proofs.Renaming.Table — the alias table of a text.

  Which names are renamed (`Survey.IsCandidate`) and which words no alias may be
  (`Survey.IsReserved`) is said here in terms of the survey alone; the table pairs the
  former, in order, with the first alias words that are not among the latter.

  Main results:
    * `isCandidate_of_alias`, `not_isCandidate_of_no_alias` — which names have an alias
    * `aliasTable_injective`, `not_isReserved_of_alias` — what aliases differ from
    * `aliasTable_exact` — the table is determined by the survey and the filter
-/
import GlslMinifier.Proofs.Alias.Assignment
import GlslMinifier.Proofs.Respelling
import GlslMinifier.Proofs.Survey
import GlslMinifier.Renaming

namespace GlslMinifier

/-! ## §1. Candidates and reserved words. -/

namespace Survey

/-- A name with rename sites that is neither protected nor claimed by the filter at the
    number of its sites. -/
def IsCandidate (s : Survey) (filter : Filter) (name : String) : Prop :=
  ∃ count, s.sites[name]? = some count ∧ s.protectedNames.contains name = false
    ∧ filter ⟨name, count⟩ = false

/-- A keyword of the list, a name of one of the six protected sets, or a name that is
    spelled somewhere after the renaming. -/
def IsReserved (s : Survey) (filter : Filter) (name : String) : Prop :=
  name ∈ Vocabulary.reservedWords ∨ (∃ set ∈ s.protectedNames.sets, name ∈ set)
    ∨ (name ∈ s.used ∧ ¬ s.IsCandidate filter name) ∨ name ∈ s.fixed

theorem mem_renamed {s : Survey} {filter : Filter} {name : String} :
    name ∈ s.renamed filter ↔ s.IsCandidate filter name := by
  simp [renamed, IsCandidate, Std.ExtTreeMap.mem_toList_iff_getElem?_eq_some]

theorem renamed_pairwise (s : Survey) (filter : Filter) :
    (s.renamed filter).Pairwise (· < ·) := by
  rw [renamed, List.pairwise_map]
  refine List.Pairwise.filter _ (List.Pairwise.imp ?_ s.sites.ordered_keys_toList)
  intro p q h
  exact compareOfLessAndEq_eq_lt.1 h

theorem mem_names_protected {p : ProtectedNames} {name : String} :
    name ∈ p.names ↔ ∃ set ∈ p.sets, name ∈ set := by
  simp [ProtectedNames.names]

theorem mem_reservedFor {s : Survey} {filter : Filter} {name : String} :
    name ∈ s.reservedFor (s.renamed filter) ↔ s.IsReserved filter name := by
  simp only [reservedFor, List.mem_append, mem_names_protected, List.mem_filter,
    Std.ExtTreeSet.mem_toList, List.contains_iff_mem, Bool.not_eq_true', ← Bool.not_eq_true,
    mem_renamed, IsReserved, or_assoc]

end Survey

/-! ## §2. Aliases and keywords. -/

theorem mem_underscore_of_hasDoubleUnderscore {cs : List Char}
    (h : hasDoubleUnderscore cs = true) : '_' ∈ cs := by
  fun_induction hasDoubleUnderscore cs with
  | case1 => simp at h
  | case2 => exact List.mem_cons_self
  | case3 _ _ _ ih => exact List.mem_cons_of_mem _ (ih h)

/-- The names that the language reserves by their shape have an underscore, which no alias
    has. -/
theorem isKeyword_eq_false {w : String} (hword : IsAliasWord w)
    (hfree : w ∉ Vocabulary.reservedWords) : isKeyword w = false := by
  have hscore : '_' ∉ w.toList := fun hmem => absurd (hword.2 _ hmem) (by decide)
  have hmark : builtinMark.toList.isPrefixOf w.toList = false := by
    rw [← Bool.not_eq_true, List.isPrefixOf_iff_prefix]
    exact fun hmark => hscore (hmark.subset (by decide))
  have hdouble : hasDoubleUnderscore w.toList = false := by
    rw [← Bool.not_eq_true]
    exact fun h => hscore (mem_underscore_of_hasDoubleUnderscore h)
  simp [isKeyword, hmark, hdouble, hfree]

theorem contains_eq_false {s : Survey} {filter : Filter} {w : String} (hword : IsAliasWord w)
    (hfree : ¬ s.IsReserved filter w) : s.protectedNames.contains w = false := by
  simp only [Survey.IsReserved, not_or] at hfree
  have hsets : ∀ set ∈ s.protectedNames.sets, w ∉ set := fun set hset hmem =>
    hfree.2.1 ⟨set, hset, hmem⟩
  rw [ProtectedNames.contains, isKeyword_eq_false hword hfree.1, Bool.false_or,
    List.any_eq_false]
  intro set hset
  simpa using hsets set hset

theorem isIdentifier_of_isAliasWord {w : String} (h : IsAliasWord w) :
    isIdentifier w = true := by
  have hstart : ∀ c, c.isLower = true → isWordStart c = true := fun c hc => by
    simp [isWordStart, isAlpha_iff, hc]
  unfold isIdentifier
  split
  next heq => exact absurd (String.toList_eq_nil_iff.1 heq) h.1
  next c cs heq =>
    have hall := h.2
    rw [heq, List.forall_mem_cons] at hall
    simp only [Bool.and_eq_true, List.all_eq_true]
    exact ⟨hstart c hall.1, fun d hd => isWordChar_of_isWordStart (hstart d (hall.2 d hd))⟩

/-! ## §3. The table. -/

/-- The aliases of a text, in the order of the names. -/
def Survey.aliasWords (s : Survey) (filter : Filter) : List String :=
  ((Allocator.empty.reserve (s.reservedFor (s.renamed filter))).takeMany
    (s.renamed filter).length).1

theorem isFirstFree_aliasWords (s : Survey) (filter : Filter) :
    IsFirstFree (s.IsReserved filter) (s.aliasWords filter) := by
  have hreserved : s.IsReserved filter = (· ∈ s.reservedFor (s.renamed filter)) :=
    funext fun _ => propext Survey.mem_reservedFor.symm
  rw [hreserved]
  have h := takeMany_isFirstFree
    (a := Allocator.empty.reserve (s.reservedFor (s.renamed filter))) rfl
    (s.renamed filter).length
  simpa [Allocator.reserve, Allocator.empty, Survey.aliasWords] using h

theorem pairs_aliasTable (s : Survey) (filter : Filter) :
    (s.aliasTable filter).pairs = (s.renamed filter).zip (s.aliasWords filter) :=
  AliasTable.pairs_assignAll rfl (s.renamed_pairwise filter)

theorem length_aliasWords (s : Survey) (filter : Filter) :
    (s.aliasWords filter).length = (s.renamed filter).length :=
  length_takeMany _ _

theorem map_fst_pairs_aliasTable (s : Survey) (filter : Filter) :
    (s.aliasTable filter).pairs.map (·.1) = s.renamed filter := by
  rw [pairs_aliasTable]
  exact List.map_fst_zip (Nat.le_of_eq (length_aliasWords s filter).symm)

theorem map_snd_pairs_aliasTable (s : Survey) (filter : Filter) :
    (s.aliasTable filter).pairs.map (·.2) = s.aliasWords filter := by
  rw [pairs_aliasTable]
  exact List.map_snd_zip (Nat.le_of_eq (length_aliasWords s filter))

section

variable {s : Survey} {filter : Filter} {name word : String}

theorem mem_aliasWords (h : (s.aliasTable filter).aliases[name]? = some word) :
    word ∈ s.aliasWords filter := by
  rw [← map_snd_pairs_aliasTable]
  exact List.mem_map_of_mem (AliasTable.mem_pairs.2 h)

theorem isCandidate_of_alias (h : (s.aliasTable filter).aliases[name]? = some word) :
    s.IsCandidate filter name := by
  rw [← Survey.mem_renamed, ← map_fst_pairs_aliasTable]
  exact List.mem_map_of_mem (AliasTable.mem_pairs.2 h)

theorem not_isCandidate_of_no_alias (h : (s.aliasTable filter).aliases[name]? = none) :
    ¬ s.IsCandidate filter name := by
  rw [← Survey.mem_renamed, ← map_fst_pairs_aliasTable]
  intro hmem
  obtain ⟨⟨_, word⟩, hpair, rfl⟩ := List.mem_map.1 hmem
  simp [AliasTable.mem_pairs.1 hpair] at h

/-- A protected name has no alias. -/
theorem no_alias_of_contains (h : s.protectedNames.contains name = true) :
    (s.aliasTable filter).aliases[name]? = none := by
  rw [Option.eq_none_iff_forall_ne_some]
  intro spelling halias
  obtain ⟨-, -, hfree, -⟩ := isCandidate_of_alias halias
  rw [h] at hfree
  exact absurd hfree (by decide)

theorem not_isReserved_of_alias (h : (s.aliasTable filter).aliases[name]? = some word) :
    ¬ s.IsReserved filter word :=
  (isFirstFree_aliasWords s filter).free word (mem_aliasWords h)

theorem isAliasWord_of_alias (h : (s.aliasTable filter).aliases[name]? = some word) :
    IsAliasWord word :=
  (isFirstFree_aliasWords s filter).isAliasWord word (mem_aliasWords h)

/-- No two names share an alias. -/
theorem aliasTable_injective {other : String}
    (h : (s.aliasTable filter).aliases[name]? = some word)
    (h' : (s.aliasTable filter).aliases[other]? = some word) : name = other := by
  have hnodup : ((s.aliasTable filter).pairs.map (·.2)).Nodup := by
    rw [map_snd_pairs_aliasTable]
    exact (isFirstFree_aliasWords s filter).nodup
  have heq := List.inj_on_of_nodup_map hnodup (AliasTable.mem_pairs.2 h)
    (AliasTable.mem_pairs.2 h') rfl
  exact congrArg Prod.fst heq

end

theorem spellsIdentifiers_aliasTable (s : Survey) (filter : Filter) :
    SpellsIdentifiers fun name => (s.aliasTable filter).aliases[name]? :=
  fun _ _ h => isIdentifier_of_isAliasWord (isAliasWord_of_alias h)

/-! ## §4. Names of a text. -/

theorem isIdentifier_of_isCandidate {text : String} {filter : Filter} {name : String}
    (h : (Survey.ofText text).IsCandidate filter name) : isIdentifier name = true := by
  obtain ⟨count, hsites, -⟩ := h
  unfold Survey.ofText at hsites
  rw [Survey.getElem?_sites_ofTokens] at hsites
  have hmem : name ∈ Survey.namesWhere (·.isRenameSite) (tokenize text) := by
    by_contra hmem
    simp [hmem] at hsites
  obtain ⟨o, ho, hkind, -, rfl⟩ := Survey.mem_namesWhere.1 hmem
  have htoken : o.token ∈ tokenize text := by
    rw [← occurrencesAfter_map_token none (tokenize text)]
    exact List.mem_map_of_mem ho
  obtain ⟨start, hshape⟩ := (cut_tokenize text).exists_wellShaped htoken
  have hidentifier : o.token.kind = .identifier := by
    simpa [Token.isIdentifier] using hkind
  unfold Token.WellShaped at hshape
  rw [hidentifier] at hshape
  exact (isIdentifier_iff_shape start).2 hshape

/-- **The alias table is exact**: its names are the candidates in ascending order of their
    bytes, its aliases the first alias words in order that are not reserved.  So aliases are
    distinct, neither keywords nor protected nor spelled elsewhere, and never get shorter
    down the table. -/
theorem aliasTable_exact (filter : Filter) (text : String) :
    let survey := Survey.ofText text
    let names := (renameIdentifiers filter text).table.pairs.map (·.1)
    let aliases := (renameIdentifiers filter text).table.pairs.map (·.2)
    (∀ name, name ∈ names ↔ survey.IsCandidate filter name)
      ∧ names.Pairwise (fun a b => utf8Bytes a < utf8Bytes b)
      ∧ IsFirstFree (survey.IsReserved filter) aliases
      ∧ aliases.Nodup
      ∧ (∀ word ∈ aliases, isKeyword word = false ∧ survey.protectedNames.contains word = false
        ∧ (word ∈ survey.used → survey.IsCandidate filter word) ∧ word ∉ survey.fixed)
      ∧ aliases.Pairwise (fun a b => a.length ≤ b.length) := by
  intro survey names aliases
  have hnames : names = survey.renamed filter := map_fst_pairs_aliasTable survey filter
  have haliases : aliases = survey.aliasWords filter := map_snd_pairs_aliasTable survey filter
  have hfirst : IsFirstFree (survey.IsReserved filter) aliases :=
    haliases ▸ isFirstFree_aliasWords survey filter
  refine ⟨fun name => hnames ▸ Survey.mem_renamed, ?_, hfirst, hfirst.nodup, ?_,
    hfirst.length_le⟩
  · -- the table is in the order of characters, which for names is that of bytes
    rw [hnames]
    refine List.Pairwise.imp_of_mem (fun {a b} ha hb hlt => ?_) (survey.renamed_pairwise filter)
    exact utf8Bytes_lt (isIdentifier_of_isCandidate (Survey.mem_renamed.1 ha))
      (isIdentifier_of_isCandidate (Survey.mem_renamed.1 hb)) hlt
  · -- each consequence is a part of the reserved words
    intro word hword
    have hfree := hfirst.free word hword
    have hshape := hfirst.isAliasWord word hword
    have hkeyword : word ∉ Vocabulary.reservedWords := fun hmem => hfree (.inl hmem)
    refine ⟨isKeyword_eq_false hshape hkeyword, contains_eq_false hshape hfree, ?_, ?_⟩
    · intro hused
      by_contra hcandidate
      exact hfree (.inr (.inr (.inl ⟨hused, hcandidate⟩)))
    · exact fun hfixed => hfree (.inr (.inr (.inr hfixed)))

end GlslMinifier
