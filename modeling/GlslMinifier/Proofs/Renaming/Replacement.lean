/-
  GlslMinifier.Proofs.Renaming.Replacement — respelling a text by any table.

  A table may be filled by hand: two names may share a new spelling, and a new spelling may
  be a name of the table itself.  Whatever the table holds, as long as its new spellings
  are identifiers, the lexer reads the respelled text token for token, and every rename
  site shows the new spelling of the name that stood there, looked up once.

  Main results:
    * `map_isRenameSite_respell` — rename sites stay where they are
    * `respellText_replaces_once` — what is read in the respelled text
-/
import GlslMinifier.Proofs.Renaming.Capture

namespace GlslMinifier

/-! ## §1. Rename sites. -/

theorem isSiteAt_iff {ts : List Token} {i : Nat} :
    IsSiteAt ts i ↔ ((occurrences ts).map (·.isRenameSite))[i]? = some true := by
  simp only [IsSiteAt, List.getElem?_map, Option.map_eq_some_iff]

/-- Rename sites stay where they are. -/
theorem map_isRenameSite_respell {spelling? : String → Option String}
    (hspell : SpellsIdentifiers spelling?) (ts : List Token) :
    (occurrences (respell spelling? ts)).map (·.isRenameSite)
      = (occurrences ts).map (·.isRenameSite) := by
  rw [eq_comm, ← List.forall₂_eq_eq_eq, List.forall₂_map_left_iff, List.forall₂_map_right_iff]
  exact (occurrences_respell hspell ts).imp fun o p h => h.2.1.symm

/-! ## §2. Replacements. -/

/-- The tokens `us` are the tokens `ts` with each rename site looked up in the table once,
    index for index. -/
structure ReplacesOnce (table : AliasTable) (ts us : List Token) : Prop where
  kinds : us.map (·.kind) = ts.map (·.kind)
  /-- A rename site shows the new spelling of its name, whatever the table holds for that
      spelling in turn. -/
  replaced : ∀ i name spelling, IsSiteAt ts i → spellingAt ts i = some name →
    table.aliases[name]? = some spelling → spellingAt us i = some spelling
  /-- Any other token is what it was. -/
  kept : ∀ i, (IsSiteAt ts i → ∀ name, spellingAt ts i = some name →
    table.aliases[name]? = none) → us[i]? = ts[i]?
  /-- Rename sites are rename sites still, and no others arise. -/
  sites : ∀ i, IsSiteAt us i ↔ IsSiteAt ts i

theorem replacesOnce_respell {table : AliasTable}
    (hspell : SpellsIdentifiers fun name => table.aliases[name]?) (ts : List Token) :
    ReplacesOnce table ts (table.respell ts) where
  kinds := map_kind_respell _ ts
  replaced := by
    intro i name spelling hi hname halias
    obtain ⟨o, ho, hsite⟩ := hi
    obtain rfl : o.token.text = name := by
      rw [spellingAt_of_occurrences ho] at hname
      exact Option.some.inj hname
    rw [spellingAt, AliasTable.respell, respell, List.getElem?_map, ho, Option.map_some,
      Option.map_some, Occurrence.respell_eq, Occurrence.spellingAfter, if_pos hsite, halias]
    rfl
  kept := by
    intro i hi
    rw [AliasTable.respell, respell, List.getElem?_map]
    cases ho : (occurrences ts)[i]? with
    | none =>
      have hlength := length_occurrencesAfter none ts
      rw [occurrences, List.getElem?_eq_none_iff, hlength] at ho
      exact (List.getElem?_eq_none ho).symm
    | some o =>
      -- where there is nothing to look up, the look-up changes nothing
      have hsame : o.spellingAfter (fun name => table.aliases[name]?) = o.token.text := by
        unfold Occurrence.spellingAfter
        split
        next hsite =>
          show (table.aliases[o.token.text]?).getD o.token.text = o.token.text
          rw [hi ⟨o, ho, hsite⟩ _ (spellingAt_of_occurrences ho)]
          rfl
        next => rfl
      rw [getElem?_of_occurrences ho, Option.map_some, Occurrence.respell_eq, hsame]
  sites := by
    intro i
    rw [isSiteAt_iff, isSiteAt_iff, AliasTable.respell, map_isRenameSite_respell hspell]

/-- **Respelling moves no token boundary and looks every name up once**, for every text and
    every table whose new spellings are identifiers. -/
theorem respellText_replaces_once (table : AliasTable) (text : String)
    (hwords : ∀ pair ∈ table.pairs, isIdentifier pair.2 = true) :
    ReplacesOnce table (tokenize text) (tokenize (table.respellText text)) := by
  have hspell : SpellsIdentifiers fun name => table.aliases[name]? := fun name spelling h =>
    hwords (name, spelling) (AliasTable.mem_pairs.2 h)
  rw [AliasTable.respellText, AliasTable.respell, tokenize_spell_respell hspell]
  exact replacesOnce_respell hspell (tokenize text)

/-- A table that turns two names around, and gives one of them to a third name as well. -/
theorem respellText_replaces_once_cycle :
    let table := ((AliasTable.empty.insert "x" "e1").insert "e1" "x").insert "y" "x"
    (∀ pair ∈ table.pairs, isIdentifier pair.2 = true)
      ∧ ReplacesOnce table (tokenize "x+.5-e1*1e-x.y/y(x)\n#x")
          (tokenize (table.respellText "x+.5-e1*1e-x.y/y(x)\n#x")) := by
  intro table
  have hwords : ∀ pair ∈ table.pairs, isIdentifier pair.2 = true := by decide +kernel
  exact ⟨hwords, respellText_replaces_once table "x+.5-e1*1e-x.y/y(x)\n#x" hwords⟩

end GlslMinifier
