/-
  GlslMinifier.Proofs.Renaming.Layout — renaming does not look at the layout.

  Texts that differ in blanks, line breaks and comments only are renamed alike: what a
  survey finds and what a respelling does is decided among the tokens that carry meaning.

  Main results:
    * `significant_content` — the tokens of a renamed text, told from those of the text
    * `renaming_ignores_layout` — same tokens, same survey, same aliases, same new tokens
-/
import GlslMinifier.Proofs.Renaming.Capture
import GlslMinifier.Proofs.Significant

namespace GlslMinifier

/-- The tokens of a renamed text that carry meaning are those of the text, respelled. -/
theorem significant_content (filter : Filter) (text : String) :
    Token.significant (tokenize (renameIdentifiers filter text).content)
      = respell (aliasOf? filter text) (Token.significant (tokenize text)) := by
  rw [tokenize_content, significant_respell]

/-- **The layout of a text plays no part in renaming it**: texts with the same tokens that
    carry meaning have the same survey, get the same aliases and still have the same tokens
    afterwards. -/
theorem renaming_ignores_layout (filter : Filter) (text other : String)
    (h : Token.significant (tokenize text) = Token.significant (tokenize other)) :
    Survey.ofText text = Survey.ofText other
      ∧ (renameIdentifiers filter text).table = (renameIdentifiers filter other).table
      ∧ Token.significant (tokenize (renameIdentifiers filter text).content)
        = Token.significant (tokenize (renameIdentifiers filter other).content) := by
  have hsurvey := survey_eq_of_significant h
  have htable : (renameIdentifiers filter text).table
      = (renameIdentifiers filter other).table := by
    unfold renameIdentifiers
    rw [hsurvey]
  refine ⟨hsurvey, htable, ?_⟩
  -- the new spellings agree, and so do the tokens that they are given to
  have halias : aliasOf? filter text = aliasOf? filter other := by
    unfold aliasOf?
    rw [htable]
  rw [significant_content, significant_content, h, halias]

/-- A directive, a qualifier, a member and a call, with and without blanks and comments
    around them. -/
theorem renaming_ignores_layout_spread :
    let text := "#if X\nin vec2 p;f(s.x+t);"
    let other := "/**/ #if X\n\nin vec2\tp ;\nf // (\n ( s /*.*/ . x + t ) ;"
    Token.significant (tokenize text) = Token.significant (tokenize other)
      ∧ Survey.ofText text = Survey.ofText other
      ∧ (renameIdentifiers (Filter.anyOf []) text).table
        = (renameIdentifiers (Filter.anyOf []) other).table
      ∧ Token.significant (tokenize (renameIdentifiers (Filter.anyOf []) text).content)
        = Token.significant (tokenize (renameIdentifiers (Filter.anyOf []) other).content) := by
  intro text other
  have hsame : Token.significant (tokenize text) = Token.significant (tokenize other) := by
    decide +kernel
  exact ⟨hsame, renaming_ignores_layout (Filter.anyOf []) text other hsame⟩

end GlslMinifier
