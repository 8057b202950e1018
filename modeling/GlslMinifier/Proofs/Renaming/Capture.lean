/-
  GlslMinifier.Proofs.Renaming.Capture — a renaming captures no name and can be undone.

  An alias may be the old spelling of another renamed name, so what keeps names apart is
  that every spelling that survives the renaming, at whatever place, is reserved.  One
  lemma says so for all kinds of survivors (`alias_ne_of_survives`); both main results
  rest on it.

  Main results:
    * `captureFree_renameIdentifiers` — names that differ still differ, and names that
      agree still agree
    * `respellText_of_inverts` — the table, turned around, gives the text back
-/
import GlslMinifier.Proofs.Renaming.Table

namespace GlslMinifier

/-! ## §1. The renamed text. -/

/-- The aliases that a text is renamed with, by name. -/
abbrev aliasOf? (filter : Filter) (text name : String) : Option String :=
  (renameIdentifiers filter text).table.aliases[name]?

theorem spellsIdentifiers_aliasOf? (filter : Filter) (text : String) :
    SpellsIdentifiers (aliasOf? filter text) :=
  spellsIdentifiers_aliasTable (Survey.ofText text) filter

/-- The lexer reads the renamed text token for token. -/
theorem tokenize_content (filter : Filter) (text : String) :
    tokenize (renameIdentifiers filter text).content
      = respell (aliasOf? filter text) (tokenize text) :=
  tokenize_spell_respell (spellsIdentifiers_aliasOf? filter text) text

theorem getElem?_tokenize_content (filter : Filter) (text : String) (i : Nat) :
    (tokenize (renameIdentifiers filter text).content)[i]?
      = (occurrences (tokenize text))[i]?.map (·.respell (aliasOf? filter text)) := by
  rw [tokenize_content, respell, List.getElem?_map]

/-! ## §2. Survivors. -/

/-- An identifier that keeps its spelling, not being a member. -/
def Occurrence.Survives (filter : Filter) (text : String) (o : Occurrence) : Prop :=
  o.token.isIdentifier = true ∧ o.isMember = false
    ∧ (o.isRenameSite = true → aliasOf? filter text o.token.text = none)

theorem Occurrence.isMember_of_isRenameSite {o : Occurrence} (h : o.isRenameSite = true) :
    o.isMember = false := by
  simp only [isRenameSite, Bool.and_eq_true, Bool.not_eq_true'] at h
  obtain ⟨⟨-, hmarks⟩, -⟩ := h
  unfold isMember
  cases hbefore : o.before with
  | none => rfl
  | some t =>
    simp only [hbefore, Option.any_some, Bool.or_eq_false_iff] at hmarks ⊢
    exact hmarks.1

theorem Occurrence.isIdentifier_of_isRenameSite {o : Occurrence}
    (h : o.isRenameSite = true) : o.token.isIdentifier = true := by
  unfold Token.isIdentifier
  rw [kind_of_isRenameSite h]
  rfl

variable {filter : Filter} {text : String}

theorem isReserved_of_survives {o : Occurrence} (ho : o ∈ occurrences (tokenize text))
    (h : o.Survives filter text) :
    (Survey.ofText text).IsReserved filter o.token.text := by
  obtain ⟨hkind, hmember, halias⟩ := h
  by_cases hsite : o.isRenameSite = true
  · -- a rename site whose name was not renamed
    have hused : o.token.text ∈ (Survey.ofText text).used :=
      Survey.mem_used_ofTokens.2 ⟨o, ho, hkind, by simp [hmember], rfl⟩
    exact .inr (.inr (.inl ⟨hused, not_isCandidate_of_no_alias (halias hsite)⟩))
  · -- a call or a word after `#`
    have hfixed : o.token.text ∈ (Survey.ofText text).fixed :=
      Survey.mem_fixed_ofTokens.2 ⟨o, ho, hkind, by simp [hmember, hsite], rfl⟩
    exact .inr (.inr (.inr hfixed))

/-- No alias is the spelling of a survivor. -/
theorem alias_ne_of_survives {o : Occurrence} (ho : o ∈ occurrences (tokenize text))
    (h : o.Survives filter text) {name spelling : String}
    (halias : aliasOf? filter text name = some spelling) : spelling ≠ o.token.text := by
  intro heq
  subst heq
  exact not_isReserved_of_alias halias (isReserved_of_survives ho h)

/-- A new spelling of a name that has a rename site tells which name it was. -/
theorem aliasOf?_getD_inj {o p : Occurrence} (ho : o ∈ occurrences (tokenize text))
    (hp : p ∈ occurrences (tokenize text)) (hsite : o.isRenameSite = true)
    (hsite' : p.isRenameSite = true) :
    (aliasOf? filter text o.token.text).getD o.token.text
        = (aliasOf? filter text p.token.text).getD p.token.text
      ↔ o.token.text = p.token.text := by
  constructor
  · intro heq
    have survives : ∀ q : Occurrence, q.isRenameSite = true →
        aliasOf? filter text q.token.text = none → q.Survives filter text := fun q hq hnone =>
      ⟨q.isIdentifier_of_isRenameSite hq, q.isMember_of_isRenameSite hq, fun _ => hnone⟩
    -- two aliases tell the names apart, and so does one alias against a survivor
    cases hleft : aliasOf? filter text o.token.text with
    | none =>
      cases hright : aliasOf? filter text p.token.text with
      | none => simpa [hleft, hright] using heq
      | some spelling =>
        have hne := alias_ne_of_survives ho (survives o hsite hleft) hright
        exact absurd (by simpa [hleft, hright] using heq.symm) hne
    | some spelling =>
      cases hright : aliasOf? filter text p.token.text with
      | none =>
        have hne := alias_ne_of_survives hp (survives p hsite' hright) hleft
        exact absurd (by simpa [hleft, hright] using heq) hne
      | some other =>
        have hsame : spelling = other := by simpa [hleft, hright] using heq
        subst hsame
        exact aliasTable_injective hleft hright
  · intro heq
    rw [heq]

/-! ## §3. No capture. -/

/-- The spelling of the token at an index. -/
def spellingAt (ts : List Token) (i : Nat) : Option String := ts[i]?.map (·.text)

/-- The token at the index is an identifier and not a member. -/
def IsNameAt (ts : List Token) (i : Nat) : Prop :=
  ∃ o, (occurrences ts)[i]? = some o ∧ o.token.isIdentifier = true ∧ o.isMember = false

/-- The token at the index is a rename site. -/
def IsSiteAt (ts : List Token) (i : Nat) : Prop :=
  ∃ o, (occurrences ts)[i]? = some o ∧ o.isRenameSite = true

/-- The tokens `us` spell the tokens `ts` with other names, index for index, without
    merging two names or splitting one. -/
structure CaptureFree (protectedNames : ProtectedNames) (table : AliasTable)
    (ts us : List Token) : Prop where
  kinds : us.map (·.kind) = ts.map (·.kind)
  /-- Two rename sites agree as they did before. -/
  sites : ∀ i j, IsSiteAt ts i → IsSiteAt ts j →
    (spellingAt us i = spellingAt us j ↔ spellingAt ts i = spellingAt ts j)
  /-- A rename site agrees with a name elsewhere if it did before and has no alias. -/
  siteAndName : ∀ i j, IsSiteAt ts i → IsNameAt ts j → ¬ IsSiteAt ts j →
    (spellingAt us i = spellingAt us j
      ↔ spellingAt ts i = spellingAt ts j
        ∧ ∀ name, spellingAt ts i = some name → table.aliases[name]? = none)
  /-- Names elsewhere are what they were. -/
  names : ∀ i, IsNameAt ts i → ¬ IsSiteAt ts i → us[i]? = ts[i]?
  /-- A protected name stands exactly where it stood. -/
  protected_iff : ∀ name, protectedNames.contains name = true →
    ∀ i, spellingAt us i = some name ↔ spellingAt ts i = some name

theorem getElem?_of_occurrences {ts : List Token} {i : Nat} {o : Occurrence}
    (h : (occurrences ts)[i]? = some o) : ts[i]? = some o.token := by
  rw [← occurrencesAfter_map_token none ts, List.getElem?_map]
  exact congrArg (Option.map (·.token)) h

theorem spellingAt_of_occurrences {ts : List Token} {i : Nat} {o : Occurrence}
    (h : (occurrences ts)[i]? = some o) : spellingAt ts i = some o.token.text := by
  rw [spellingAt, getElem?_of_occurrences h]
  rfl

theorem spellingAt_content {i : Nat} {o : Occurrence}
    (h : (occurrences (tokenize text))[i]? = some o) :
    spellingAt (tokenize (renameIdentifiers filter text).content) i
      = some (o.spellingAfter (aliasOf? filter text)) := by
  rw [spellingAt, getElem?_tokenize_content, h, Option.map_some, Option.map_some,
    Occurrence.respell_eq]

theorem spellingAt_eq_none {ts : List Token} {i : Nat} (h : (occurrences ts)[i]? = none) :
    spellingAt ts i = none := by
  rw [spellingAt, ← occurrencesAfter_map_token none ts, List.getElem?_map]
  exact congrArg (Option.map (·.text)) (congrArg (Option.map (·.token)) h)

/-- Protected names are neither renamed nor aliases. -/
theorem spellingAfter_eq_protected_iff {o : Occurrence} {name : String}
    (hname : (Survey.ofText text).protectedNames.contains name = true) :
    o.spellingAfter (aliasOf? filter text) = name ↔ o.token.text = name := by
  unfold Occurrence.spellingAfter
  by_cases hsite : o.isRenameSite = true
  · rw [if_pos hsite]
    cases halias : aliasOf? filter text o.token.text with
    | none => rfl
    | some spelling =>
      have hfree : (Survey.ofText text).protectedNames.contains spelling = false :=
        contains_eq_false (isAliasWord_of_alias halias) (not_isReserved_of_alias halias)
      obtain ⟨-, -, hold, -⟩ := isCandidate_of_alias halias
      constructor
      · intro heq
        subst heq
        exact absurd hname (by simpa using hfree)
      · intro heq
        subst heq
        exact absurd hname (by simpa using hold)
  · rw [if_neg hsite]

/-- A protected name stands in the renamed text exactly where it stood. -/
theorem spellingAt_content_eq_protected_iff {name : String}
    (hname : (Survey.ofText text).protectedNames.contains name = true) (i : Nat) :
    spellingAt (tokenize (renameIdentifiers filter text).content) i = some name
      ↔ spellingAt (tokenize text) i = some name := by
  cases ho : (occurrences (tokenize text))[i]? with
  | none =>
    have hcontent : spellingAt (tokenize (renameIdentifiers filter text).content) i = none := by
      rw [spellingAt, getElem?_tokenize_content, ho]
      rfl
    rw [hcontent, spellingAt_eq_none ho]
  | some o =>
    rw [spellingAt_content ho, spellingAt_of_occurrences ho, Option.some_inj, Option.some_inj]
    exact spellingAfter_eq_protected_iff hname

theorem map_kind_content (filter : Filter) (text : String) :
    (tokenize (renameIdentifiers filter text).content).map (·.kind)
      = (tokenize text).map (·.kind) := by
  rw [tokenize_content, map_kind_respell]

/-- A new spelling meets a name that is no rename site only where there is no alias. -/
theorem aliasOf?_getD_eq_fixed_iff {o p : Occurrence} (hp : p ∈ occurrences (tokenize text))
    (hkind : p.token.isIdentifier = true) (hmember : p.isMember = false)
    (hsite : ¬ p.isRenameSite = true) :
    (aliasOf? filter text o.token.text).getD o.token.text = p.token.text
      ↔ o.token.text = p.token.text ∧ aliasOf? filter text o.token.text = none := by
  cases halias : aliasOf? filter text o.token.text with
  | none => simp
  | some spelling =>
    have hne := alias_ne_of_survives hp ⟨hkind, hmember, fun h => absurd h hsite⟩ halias
    simp [hne]

/-- **Renaming is capture-free**, for every text and every filter. -/
theorem captureFree_renameIdentifiers (filter : Filter) (text : String) :
    CaptureFree (Survey.ofText text).protectedNames (renameIdentifiers filter text).table
      (tokenize text) (tokenize (renameIdentifiers filter text).content) where
  kinds := map_kind_content filter text
  sites := by
    intro i j hi hj
    obtain ⟨o, ho, hsite⟩ := hi
    obtain ⟨p, hp, hsite'⟩ := hj
    rw [spellingAt_content ho, spellingAt_content hp, spellingAt_of_occurrences ho,
      spellingAt_of_occurrences hp, Option.some_inj, Option.some_inj]
    unfold Occurrence.spellingAfter
    rw [if_pos hsite, if_pos hsite']
    exact aliasOf?_getD_inj (List.mem_of_getElem? ho) (List.mem_of_getElem? hp) hsite hsite'
  siteAndName := by
    intro i j hi hj hnot
    obtain ⟨o, ho, hsite⟩ := hi
    obtain ⟨p, hp, hkind, hmember⟩ := hj
    have hsite' : ¬ p.isRenameSite = true := fun h => hnot ⟨p, hp, h⟩
    rw [spellingAt_content ho, spellingAt_content hp, spellingAt_of_occurrences ho,
      spellingAt_of_occurrences hp, Option.some_inj, Option.some_inj]
    unfold Occurrence.spellingAfter
    rw [if_pos hsite, if_neg hsite',
      aliasOf?_getD_eq_fixed_iff (List.mem_of_getElem? hp) hkind hmember hsite']
    simp only [Option.some.injEq, forall_eq']
  names := by
    intro i hi hnot
    obtain ⟨o, ho, -, -⟩ := hi
    have hsite : ¬ o.isRenameSite = true := fun h => hnot ⟨o, ho, h⟩
    rw [getElem?_tokenize_content, ho, getElem?_of_occurrences ho, Option.map_some,
      Occurrence.respell_eq, Occurrence.spellingAfter, if_neg hsite]
  protected_iff := fun _ hname i => spellingAt_content_eq_protected_iff hname i

/-! ## §4. Undoing a renaming. -/

/-- A table that takes the aliases of another back to their names, and gives no other
    aliases. -/
def AliasTable.Inverts (inverse table : AliasTable) : Prop :=
  ∀ name spelling : String, inverse.aliases[spelling]? = some name
    ↔ table.aliases[name]? = some spelling

/-- The table turned around: what was an alias is a name, and the other way round. -/
def AliasTable.inverse (table : AliasTable) : AliasTable :=
  table.pairs.foldl (fun t pair => t.insert pair.2 pair.1) .empty

theorem getElem?_foldl_insert (pairs : List (String × String)) (t : AliasTable)
    (hnodup : (pairs.map (·.2)).Nodup) (name spelling : String) :
    (pairs.foldl (fun t pair => t.insert pair.2 pair.1) t).aliases[spelling]? = some name
      ↔ (name, spelling) ∈ pairs
        ∨ spelling ∉ pairs.map (·.2) ∧ t.aliases[spelling]? = some name := by
  induction pairs generalizing t with
  | nil => simp
  | cons pair pairs ih =>
    rw [List.map_cons, List.nodup_cons] at hnodup
    rw [List.foldl_cons, ih _ hnodup.2, AliasTable.insert, Std.ExtTreeMap.getElem?_insert]
    simp only [Std.LawfulEqCmp.compare_eq_iff_eq, List.map_cons, List.mem_cons, not_or]
    by_cases heq : pair.2 = spelling
    · -- the pair at hand decides, and no later one speaks of the same spelling
      subst heq
      have hlater : (name, pair.2) ∉ pairs := fun hmem =>
        hnodup.1 (List.mem_map_of_mem (f := (·.2)) hmem)
      simp [hnodup.1, hlater, Prod.ext_iff, eq_comm]
    · have hfirst : (name, spelling) ≠ pair := by
        intro heq
        subst heq
        exact heq rfl
      simp [heq, hfirst, Ne.symm heq]

/-- The table of a renaming can be turned around, since no two names share an alias. -/
theorem inverts_inverse_table (filter : Filter) (text : String) :
    (renameIdentifiers filter text).table.inverse.Inverts
      (renameIdentifiers filter text).table := by
  have hnodup : ((renameIdentifiers filter text).table.pairs.map (·.2)).Nodup := by
    rw [renameIdentifiers, map_snd_pairs_aliasTable]
    exact (isFirstFree_aliasWords _ filter).nodup
  intro name spelling
  have hempty : AliasTable.empty.aliases[spelling]? = none := rfl
  unfold AliasTable.inverse
  rw [getElem?_foldl_insert _ _ hnodup, AliasTable.mem_pairs, hempty]
  simp

/-- **A renaming is undone** by respelling the renamed text with the table turned
    around. -/
theorem respellText_of_inverts (filter : Filter) (text : String) (inverse : AliasTable)
    (hinverse : inverse.Inverts (renameIdentifiers filter text).table) :
    inverse.respellText (renameIdentifiers filter text).content = text := by
  have hundo : ∀ o ∈ occurrences (tokenize text), o.isRenameSite = true →
      (inverse.aliases[o.spellingAfter (aliasOf? filter text)]?).getD
        (o.spellingAfter (aliasOf? filter text)) = o.token.text := by
    intro o ho hsite
    unfold Occurrence.spellingAfter
    rw [if_pos hsite]
    cases halias : aliasOf? filter text o.token.text with
    | some spelling =>
      show (inverse.aliases[spelling]?).getD spelling = o.token.text
      rw [(hinverse _ _).2 halias]
      rfl
    | none =>
      show (inverse.aliases[o.token.text]?).getD o.token.text = o.token.text
      cases hback : inverse.aliases[o.token.text]? with
      | none => rfl
      | some name =>
        -- the name at this site would be an alias of another name
        have hne := alias_ne_of_survives ho ⟨o.isIdentifier_of_isRenameSite hsite,
          o.isMember_of_isRenameSite hsite, fun _ => halias⟩ ((hinverse _ _).1 hback)
        exact absurd rfl hne
  unfold AliasTable.respellText AliasTable.respell
  rw [tokenize_content, respell_respell (spellsIdentifiers_aliasOf? filter text) hundo]
  exact spell_tokenize text

/-- Here `b` becomes `a` and `c` becomes `b`, the old spelling of the other name. -/
theorem respellText_of_inverts_shifted :
    (renameIdentifiers (Filter.anyOf []) "int b, c; c = b;").table.inverse.Inverts
        (renameIdentifiers (Filter.anyOf []) "int b, c; c = b;").table
      ∧ (renameIdentifiers (Filter.anyOf []) "int b, c; c = b;").table.inverse.respellText
          (renameIdentifiers (Filter.anyOf []) "int b, c; c = b;").content
        = "int b, c; c = b;" :=
  ⟨inverts_inverse_table (Filter.anyOf []) "int b, c; c = b;",
    respellText_of_inverts (Filter.anyOf []) "int b, c; c = b;" _
      (inverts_inverse_table (Filter.anyOf []) "int b, c; c = b;")⟩

end GlslMinifier
