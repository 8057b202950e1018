/-
  GlslMinifier.Proofs.Significant — what depends on the tokens that carry meaning alone.

  Blanks, line breaks and comments have no part in what an identifier stands next to, so
  texts with the same tokens in between are surveyed alike, and respelling a text is
  respelling what is left of it when they are taken away.

  Main results:
    * `occurrencesAfter_significant` — neighbours are found among the tokens with a meaning
    * `significant_respell` — respelling and dropping the other tokens commute
    * `survey_eq_of_significant` — texts with the same meaning have the same survey
    * `eq_of_respells_of_significant` — two respellings that agree there are the same
-/
import GlslMinifier.Proofs.Respelling
import GlslMinifier.Survey

namespace GlslMinifier

/-! ## §1. Occurrences. -/

/-- The next token with a meaning is the next of the tokens with a meaning. -/
theorem find?_significant (ts : List Token) :
    (Token.significant ts).find? (!·.isTrivia) = ts.find? (!·.isTrivia) := by
  unfold Token.significant
  rw [List.find?_filter]
  simp only [and_self, Bool.decide_eq_true]

/-- The occurrences of the tokens with a meaning are those that have their neighbours in
    the whole text. -/
theorem occurrencesAfter_significant (before : Option Token) (ts : List Token) :
    occurrencesAfter before (Token.significant ts)
      = (occurrencesAfter before ts).filter (!·.token.isTrivia) := by
  induction ts generalizing before with
  | nil => rfl
  | cons t ts ih =>
    unfold Token.significant at ih ⊢
    by_cases htrivia : t.isTrivia = true
    · -- a token without a meaning is nobody's neighbour
      rw [List.filter_cons_of_neg (by simp [htrivia]), ih, occurrencesAfter, if_pos htrivia,
        List.filter_cons_of_neg (by simp [htrivia])]
    · have hnext := find?_significant ts
      unfold Token.significant at hnext
      rw [List.filter_cons_of_pos (by simp [htrivia]), occurrencesAfter, occurrencesAfter,
        if_neg htrivia, hnext, ih, List.filter_cons_of_pos (by simp [htrivia])]

theorem Token.isTrivia_of_isIdentifier {t : Token} (h : t.isIdentifier = true) :
    t.isTrivia = false := by
  have hkind : t.kind = .identifier := by simpa [Token.isIdentifier] using h
  unfold Token.isTrivia
  rw [hkind]
  rfl

/-- Respelling and dropping the tokens without a meaning commute. -/
theorem significant_respell (spelling? : String → Option String) (ts : List Token) :
    Token.significant (respell spelling? ts) = respell spelling? (Token.significant ts) := by
  have hkind : ∀ o : Occurrence,
      (!(o.respell spelling?).isTrivia) = !o.token.isTrivia := by
    intro o
    rw [Occurrence.respell_eq]
    rfl
  unfold respell occurrences
  rw [occurrencesAfter_significant, Token.significant, List.filter_map]
  exact congrArg (List.map (·.respell spelling?)) (List.filter_congr fun o _ => hkind o)

/-! ## §2. Surveys. -/

namespace Survey

/-- Names are looked for at identifiers, which all carry meaning. -/
theorem namesWhere_significant (p : Occurrence → Bool) (ts : List Token) :
    namesWhere p (Token.significant ts) = namesWhere p ts := by
  have hkept : ∀ o : Occurrence,
      ((o.token.isIdentifier && p o) && !o.token.isTrivia) = (o.token.isIdentifier && p o) := by
    intro o
    cases hword : o.token.isIdentifier with
    | false => rfl
    | true => simp [Token.isTrivia_of_isIdentifier hword]
  unfold namesWhere occurrences
  rw [occurrencesAfter_significant, List.filter_filter]
  exact congrArg (List.map (·.token.text)) (List.filter_congr fun o _ => hkept o)

theorem significant_significant (ts : List Token) :
    Token.significant (Token.significant ts) = Token.significant ts := by
  unfold Token.significant
  rw [List.filter_filter]
  simp only [Bool.and_self]

theorem ofTokens_significant (ts : List Token) : ofTokens (Token.significant ts) = ofTokens ts := by
  unfold ofTokens ProtectedNames.ofTokens
  simp only [namesWhere_significant, significant_significant]

end Survey

/-- **Texts with the same tokens that carry meaning have the same survey.** -/
theorem survey_eq_of_significant {s t : String}
    (h : Token.significant (tokenize s) = Token.significant (tokenize t)) :
    Survey.ofText s = Survey.ofText t := by
  unfold Survey.ofText
  rw [← Survey.ofTokens_significant (tokenize s), h, Survey.ofTokens_significant]

/-! ## §3. Respellings. -/

/-- Respellings of one token list are the same as soon as they agree on the tokens that
    carry meaning: the others are no identifiers. -/
theorem eq_of_respells_of_significant {ts us vs : List Token}
    (hus : List.Forall₂ Token.Respells ts us) (hvs : List.Forall₂ Token.Respells ts vs)
    (h : Token.significant us = Token.significant vs) : us = vs := by
  induction hus generalizing vs with
  | nil =>
    cases hvs
    rfl
  | @cons t u ts us htu _ ih =>
    cases hvs with
    | @cons _ v _ vs htv hvs =>
      unfold Token.significant at h ih
      by_cases htrivia : t.isTrivia = true
      · -- neither token is an identifier, so neither was respelled
        have hsame : ∀ w, t.Respells w → w = t := by
          intro w hw
          rcases hw with rfl | ⟨hkind, -⟩
          · rfl
          · exact absurd htrivia (by simp [Token.isTrivia, Kind.isTrivia, hkind])
        obtain rfl := hsame u htu
        obtain rfl := hsame v htv
        rw [List.filter_cons_of_neg (by simp [htrivia]),
          List.filter_cons_of_neg (by simp [htrivia])] at h
        rw [ih hvs h]
      · rw [List.filter_cons_of_pos (by simp [htu.isTrivia_eq, htrivia]),
          List.filter_cons_of_pos (by simp [htv.isTrivia_eq, htrivia])] at h
        obtain ⟨rfl, hrest⟩ := List.cons.inj h
        rw [ih hvs hrest]

end GlslMinifier
