/-
  GlslMinifier.Proofs.Renaming.Growth — how much longer a text gets by being renamed.

  Renaming changes the length of a text at its rename sites only.  Each site of a name adds
  what the alias is longer than the name, so the new length follows from the table of
  aliases and from the number of rename sites of each name.

  Main results:
    * `growth_spell_respell` — a respelled text grows at its rename sites
    * `growth_content` — what the aliases of a table add, counted name by name
    * `alias_not_longer` — with enough free letters no alias is longer than its name
-/
import GlslMinifier.Proofs.Renaming.Capture
import Mathlib.Algebra.BigOperators.Group.List.Basic
import Mathlib.Algebra.Ring.Int.Defs
import Mathlib.Data.String.Basic

namespace GlslMinifier

/-! ## §1. Bytes. -/

/-- How many bytes `after` is longer than `before`; negative where it is shorter. -/
def growth (before after : String) : Int := after.utf8ByteSize - before.utf8ByteSize

@[simp] theorem growth_self (text : String) : growth text text = 0 := by simp [growth]

theorem growth_append (before after before' after' : String) :
    growth (before ++ before') (after ++ after')
      = growth before after + growth before' after' := by
  simp only [growth, String.utf8ByteSize_append]
  omega

theorem growth_nonpos_iff {before after : String} :
    growth before after ≤ 0 ↔ after.utf8ByteSize ≤ before.utf8ByteSize := by
  unfold growth
  omega

/-! ## §2. Growth at rename sites. -/

theorem growth_respelled_token (spelling? : String → Option String) (o : Occurrence) :
    growth o.token.text (o.respell spelling?).text
      = if o.isRenameSite then growth o.token.text ((spelling? o.token.text).getD o.token.text)
        else 0 := by
  rw [Occurrence.respell_eq, Occurrence.spellingAfter]
  cases o.isRenameSite with
  | true => rfl
  | false => exact growth_self _

theorem growth_respelled_tokens (spelling? : String → Option String) (os : List Occurrence) :
    growth (Token.spell (os.map (·.token))) (Token.spell (os.map (·.respell spelling?)))
      = (((os.filter fun o => o.token.isIdentifier && o.isRenameSite).map (·.token.text)).map
          fun name => growth name ((spelling? name).getD name)).sum := by
  induction os with
  | nil => exact growth_self _
  | cons o os ih =>
    rw [List.map_cons, List.map_cons, Token.spell_cons, Token.spell_cons, growth_append, ih,
      growth_respelled_token]
    cases hsite : o.isRenameSite with
    | true =>
      have hword := Occurrence.isIdentifier_of_isRenameSite hsite
      rw [List.filter_cons_of_pos (by simp [hword, hsite]), List.map_cons, List.map_cons,
        List.sum_cons]
      rfl
    | false =>
      rw [List.filter_cons_of_neg (by simp [hsite]), if_neg Bool.false_ne_true, Int.zero_add]

/-- **A respelled text grows at its rename sites**, at each by what the new spelling is
    longer. -/
theorem growth_spell_respell (spelling? : String → Option String) (text : String) :
    growth text (Token.spell (respell spelling? (tokenize text)))
      = ((Survey.namesWhere (·.isRenameSite) (tokenize text)).map fun name =>
          growth name ((spelling? name).getD name)).sum := by
  have hgrowth := growth_respelled_tokens spelling? (occurrences (tokenize text))
  have htokens : (occurrences (tokenize text)).map (·.token) = tokenize text :=
    occurrencesAfter_map_token none _
  rw [htokens, spell_tokenize] at hgrowth
  exact hgrowth

/-! ## §3. Growth name by name. -/

/-- A listed name grows by its one entry. -/
theorem growth_lookup {pairs : List (String × String)} (hnodup : (pairs.map Prod.fst).Nodup)
    (name : String) :
    growth name ((pairs.lookup name).getD name)
      = (pairs.map fun pair =>
          if name = pair.1 then growth pair.1 pair.2 else 0).sum := by
  induction pairs with
  | nil => exact growth_self name
  | cons pair pairs ih =>
    obtain ⟨key, spelling⟩ := pair
    rw [List.map_cons, List.nodup_cons] at hnodup
    obtain ⟨hnew, hnodup⟩ := hnodup
    rw [List.map_cons, List.sum_cons]
    by_cases hname : name = key
    · -- the later entries are those of other names
      subst hname
      have hlater : (pairs.map fun pair =>
          if name = pair.1 then growth pair.1 pair.2 else 0).sum = 0 := by
        refine List.sum_eq_zero fun x hx => ?_
        obtain ⟨pair, hpair, rfl⟩ := List.mem_map.1 hx
        exact if_neg fun heq : name = pair.1 => hnew (by
          rw [heq]
          exact List.mem_map.2 ⟨pair, hpair, rfl⟩)
      rw [hlater, List.lookup_cons_self, if_pos rfl, Int.add_zero]
      rfl
    · rw [List.lookup_cons, beq_eq_false_iff_ne.2 hname, if_neg hname, Int.zero_add]
      exact ih hnodup

theorem sum_growth_lookup {pairs : List (String × String)} (hnodup : (pairs.map Prod.fst).Nodup)
    (names : List String) :
    (names.map fun name => growth name ((pairs.lookup name).getD name)).sum
      = (pairs.map fun pair => (names.count pair.1 : Int) * growth pair.1 pair.2).sum := by
  induction names with
  | nil => simp
  | cons name names ih =>
    rw [List.map_cons, List.sum_cons, ih, growth_lookup hnodup, ← List.sum_map_add]
    -- one more site of the name counts once more in its entry
    refine congrArg List.sum (List.map_congr_left fun pair _ => ?_)
    rw [List.count_cons]
    by_cases hname : name = pair.1
    · simp [hname, Int.add_mul, Int.add_comm]
    · simp [hname]

namespace Survey

/-- How often the name stands at a rename site. -/
def siteCount (s : Survey) (name : String) : Nat := s.sites[name]?.getD 0

theorem siteCount_ofTokens (ts : List Token) (name : String) :
    (ofTokens ts).siteCount name = (namesWhere (·.isRenameSite) ts).count name := by
  unfold siteCount
  rw [getElem?_sites_ofTokens]
  by_cases hname : name ∈ namesWhere (·.isRenameSite) ts
  · rw [if_pos hname]
    rfl
  · rw [if_neg hname, List.count_eq_zero.2 hname]
    rfl

/-- How many bytes the aliases add to a text: at each rename site of a name, what its alias
    is longer. -/
def growthBy (s : Survey) (aliases : List (String × String)) : Int :=
  (aliases.map fun pair => (s.siteCount pair.1 : Int) * growth pair.1 pair.2).sum

theorem growthBy_nonpos {s : Survey} {aliases : List (String × String)}
    (h : ∀ pair ∈ aliases, pair.2.utf8ByteSize ≤ pair.1.utf8ByteSize) :
    s.growthBy aliases ≤ 0 := by
  unfold growthBy
  induction aliases with
  | nil => exact Int.le_refl 0
  | cons pair aliases ih =>
    obtain ⟨hpair, hlater⟩ := List.forall_mem_cons.1 h
    have hfirst : (s.siteCount pair.1 : Int) * growth pair.1 pair.2 ≤ 0 :=
      Int.mul_nonpos_of_nonneg_of_nonpos (Int.natCast_nonneg _) (growth_nonpos_iff.2 hpair)
    rw [List.map_cons, List.sum_cons]
    exact Int.add_nonpos hfirst (ih hlater)

end Survey

/-- **A respelled text grows name by name**: by the rename sites of each name times what its
    new spelling is longer. -/
theorem growth_respell_lookup {aliases : List (String × String)}
    (hnodup : (aliases.map Prod.fst).Nodup) (text : String) :
    growth text (Token.spell (respell (fun name => aliases.lookup name) (tokenize text)))
      = (Survey.ofText text).growthBy aliases := by
  rw [growth_spell_respell, sum_growth_lookup hnodup]
  refine congrArg List.sum (List.map_congr_left fun pair _ => ?_)
  rw [← Survey.siteCount_ofTokens]
  rfl

/-- **A renamed text grows by what its table adds.** -/
theorem growth_content (filter : Filter) (text : String) :
    growth text (renameIdentifiers filter text).content
      = (Survey.ofText text).growthBy (renameIdentifiers filter text).table.pairs := by
  have hlookup : (fun name => (renameIdentifiers filter text).table.pairs.lookup name)
      = aliasOf? filter text := funext fun name => lookup_pairs _ name
  have hgrowth := growth_respell_lookup
    (renameIdentifiers filter text).table.nodup_map_fst_pairs text
  rw [hlookup] at hgrowth
  exact hgrowth

/-! ## §4. Aliases of one letter. -/

/-- Words of letters, digits and underscores have a byte for each character. -/
theorem utf8ByteSize_of_isWordChar {w : String} (h : ∀ c ∈ w.toList, isWordChar c = true) :
    w.utf8ByteSize = w.length := by
  rw [← String.length_toList, ← String.utf8Len_toList]
  generalize w.toList = cs at h
  induction cs with
  | nil => rfl
  | cons c cs ih =>
    obtain ⟨hc, hcs⟩ := List.forall_mem_cons.1 h
    have hbyte : c.utf8Size = 1 := by
      rw [← String.length_utf8EncodeChar, utf8EncodeChar_of_isWordChar hc]
      rfl
    rw [String.utf8Len_cons, ih hcs, hbyte, List.length_cons]

/-- When there are enough free words of one letter, no other words are taken. -/
theorem IsFirstFree.length_eq_one {isReserved : String → Prop} {words letters : List String}
    (h : IsFirstFree isReserved words) (hnodup : letters.Nodup)
    (hletters : ∀ u ∈ letters, IsAliasWord u ∧ u.length = 1 ∧ ¬ isReserved u)
    (hcount : words.length ≤ letters.length) : ∀ w ∈ words, w.length = 1 := by
  intro w hw
  by_contra hlong
  have hne : w.length ≠ 0 := fun hzero =>
    (h.isAliasWord w hw).1 (String.length_eq_zero_iff.1 hzero)
  -- all free letters come before a longer word, so they are taken as well
  have htaken : ∀ u ∈ letters, u ∈ words := by
    intro u hu
    obtain ⟨hword, hone, hfree⟩ := hletters u hu
    refine h.initial w hw u hword hfree (.inl ?_)
    rw [String.length_toList, String.length_toList]
    omega
  have hnot : w ∉ letters := fun hmem => hlong (hletters w hmem).2.1
  have hsub : (w :: letters).length ≤ words.length :=
    (List.subperm_of_subset (List.nodup_cons.2 ⟨hnot, hnodup⟩)
      (List.forall_mem_cons.2 ⟨hw, htaken⟩)).length_le
  rw [List.length_cons] at hsub
  omega

/-- **No alias is longer than its name** when there are as many free words of one letter as
    there are names to rename. -/
theorem alias_not_longer {filter : Filter} {text : String} {letters : List String}
    (hnodup : letters.Nodup)
    (hletters : ∀ u ∈ letters,
      IsAliasWord u ∧ u.length = 1 ∧ ¬ (Survey.ofText text).IsReserved filter u)
    (hcount : (renameIdentifiers filter text).table.pairs.length ≤ letters.length) :
    ∀ pair ∈ (renameIdentifiers filter text).table.pairs,
      pair.2.utf8ByteSize ≤ pair.1.utf8ByteSize := by
  intro pair hpair
  have halias := AliasTable.mem_pairs.1 hpair
  -- the alias is one letter, and the name is not empty
  have hone : pair.2.utf8ByteSize = 1 := by
    rw [utf8ByteSize_of_isWordChar (isWordChar_of_isIdentifier
      (isIdentifier_of_isAliasWord (isAliasWord_of_alias halias)))]
    refine (isFirstFree_aliasWords _ filter).length_eq_one hnodup hletters ?_ pair.2
      (mem_aliasWords halias)
    rwa [← map_snd_pairs_aliasTable, List.length_map]
  have hname := isIdentifier_of_isCandidate (isCandidate_of_alias halias)
  have hne : pair.1.length ≠ 0 := by
    intro hzero
    rw [String.length_eq_zero_iff.1 hzero] at hname
    exact absurd hname (by decide)
  rw [hone, utf8ByteSize_of_isWordChar (isWordChar_of_isIdentifier hname)]
  omega

end GlslMinifier
