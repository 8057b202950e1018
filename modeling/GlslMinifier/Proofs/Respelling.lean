/-
  GlslMinifier.Proofs.Respelling — what respelling leaves as it is.

  Respelling puts identifiers in the place of identifiers and touches nothing else.  No
  token boundary moves, because an identifier meets its neighbours in the same way
  whatever its letters are; and no rename site comes or goes, because what makes a rename
  site is kinds and punctuation.

  Main results:
    * `Cut.respelled` — a respelled cut is a cut
    * `tokenize_spell_respell` — the lexer reads a respelled text token for token
    * `occurrences_respell` — rename sites and members stay where they are
    * `respell_respell` — when one respelling undoes another
-/
import GlslMinifier.Proofs.Segmentation
import GlslMinifier.Token.Site
import Mathlib.Data.List.Forall2

namespace GlslMinifier

/-! ## §1. Lists related item by item. -/

theorem forall_of_forall₂ {α β : Type} {r : α → β → Prop} {as : List α} {bs : List β}
    {p : α → Prop} {q : β → Prop} (hrel : List.Forall₂ r as bs)
    (h : ∀ a b, r a b → p a → q b) (has : ∀ a ∈ as, p a) : ∀ b ∈ bs, q b := by
  induction hrel with
  | nil => simp
  | @cons a b as bs hab _ ih =>
    intro c hc
    rcases List.mem_cons.1 hc with rfl | hc
    · exact h a c hab (has a List.mem_cons_self)
    · exact ih (fun d hd => has d (List.mem_cons_of_mem _ hd)) c hc

theorem exists_append_of_forall₂ {α β : Type} {r : α → β → Prop} {as bs : List α} {cs : List β}
    (h : List.Forall₂ r (as ++ bs) cs) :
    ∃ ds es, cs = ds ++ es ∧ List.Forall₂ r as ds ∧ List.Forall₂ r bs es := by
  induction as generalizing cs with
  | nil => exact ⟨[], cs, rfl, .nil, h⟩
  | cons a as ih =>
    cases h with
    | @cons _ c _ cs hac hrest =>
      obtain ⟨ds, es, rfl, hds, hes⟩ := ih hrest
      exact ⟨c :: ds, es, rfl, .cons hac hds, hes⟩

/-- Lists that agree on what passes a filter. -/
theorem map_filter_of_forall₂ {α β γ : Type} {r : α → β → Prop} {p : α → Bool} {q : β → Bool}
    {f : α → γ} {g : β → γ} {as : List α} {bs : List β} (h : List.Forall₂ r as bs)
    (hpass : ∀ a b, r a b → q b = p a) (heq : ∀ a b, r a b → p a = true → g b = f a) :
    (bs.filter q).map g = (as.filter p).map f := by
  induction h with
  | nil => rfl
  | @cons a b as bs hab _ ih =>
    by_cases hp : p a = true
    · rw [List.filter_cons_of_pos hp, List.filter_cons_of_pos ((hpass a b hab).trans hp),
        List.map_cons, List.map_cons, ih, heq a b hab hp]
    · rw [List.filter_cons_of_neg hp, List.filter_cons_of_neg (by rwa [hpass a b hab]), ih]

/-! ## §2. Tokens in the place of tokens. -/

/-- `u` may stand for `t` in a respelled text: it is the same token, or both are
    identifiers. -/
def Token.Respells (t u : Token) : Prop :=
  u = t ∨ t.kind = .identifier ∧ u.kind = .identifier
    ∧ GlslMinifier.isIdentifier u.text = true

theorem isIdentifier_iff_shape {name : String} (lineStart : Bool) :
    isIdentifier name = true ↔ Kind.identifier.Shape lineStart name.toList := by
  cases hname : name.toList <;> simp [isIdentifier, Kind.Shape, hname]

namespace Token.Respells

variable {t u : Token} (h : t.Respells u)
include h

theorem kind_eq : u.kind = t.kind := by
  rcases h with rfl | ⟨ht, hu, -⟩
  · rfl
  · rw [ht, hu]

theorem isTrivia_eq : u.isTrivia = t.isTrivia := by
  unfold Token.isTrivia
  rw [h.kind_eq]

theorem isPunctuation_eq (text : String) : u.isPunctuation text = t.isPunctuation text := by
  rcases h with rfl | ⟨ht, hu, -⟩
  · rfl
  · simp only [Token.isPunctuation, ht, hu]
    rfl

theorem wellShaped {lineStart : Bool} (ht : t.WellShaped lineStart) :
    u.WellShaped lineStart := by
  rcases h with rfl | ⟨-, hu, htext⟩
  · exact ht
  · unfold Token.WellShaped
    rw [hu]
    exact (isIdentifier_iff_shape lineStart).1 htext

theorem absorbs_eq : u.absorbs = t.absorbs := by
  rcases h with rfl | ⟨ht, hu, -⟩
  · rfl
  · simp only [Token.absorbs, ht, hu]
    rfl

/-- Both tokens begin alike: with the same character, or with a letter or underscore. -/
theorem first?_cases {lineStart : Bool} (ht : t.WellShaped lineStart) :
    u.first? = t.first? ∨ ∃ c d, t.first? = some c ∧ u.first? = some d
      ∧ isWordStart c = true ∧ isWordStart d = true := by
  rcases h with rfl | ⟨hkind, -, htext⟩
  · exact .inl rfl
  · unfold Token.WellShaped at ht
    rw [hkind] at ht
    obtain ⟨c, cs, hc, hstart, -⟩ := ht
    obtain ⟨d, ds, hd, hstart', -⟩ := (isIdentifier_iff_shape lineStart).1 htext
    exact .inr ⟨c, d, by simp [Token.first?, hc], by simp [Token.first?, hd], hstart, hstart'⟩

end Token.Respells

/-! ## §3. Cuts. -/

/-- To the token before it, one letter is like another. -/
theorem Token.absorbs_wordStart (t : Token) {c d : Char} (hc : isWordStart c = true)
    (hd : isWordStart d = true) : t.absorbs c = t.absorbs d := by
  have hword : isWordChar c = true ∧ isWordChar d = true :=
    ⟨isWordChar_of_isWordStart hc, isWordChar_of_isWordStart hd⟩
  -- a letter is none of the characters that some kind of token looks out for
  have hmark : ∀ e ∈ ['\n', '#', '/', '*', '.', '+', '-'],
      (c == e) = false ∧ (d == e) = false := fun e he =>
    ⟨by simpa using ne_of_isWordChar hword.1 e he, by simpa using ne_of_isWordChar hword.2 e he⟩
  simp only [Token.absorbs]
  cases t.kind with
  | newline => rfl
  | whitespace => simp [Kind.absorbs, isBlank_eq_false_of_isWordChar, hword]
  | directive => simp [Kind.absorbs, bne, hmark]
  | comment =>
    simp only [Kind.absorbs]
    fun_cases commentAbsorbs t.text.toList c <;> simp_all [commentAbsorbs, bne]
  | identifier => simp [Kind.absorbs, hword]
  | number => simp [Kind.absorbs, numberGoesOn, isNumberChar_of_isWordChar, hword]
  | punctuation =>
    simp [Kind.absorbs, hmark, isDigit_eq_false_of_isWordStart, hc, hd]

/-- Respelling moves no token boundary. -/
theorem Cut.respelled {lineStart : Bool} {next? : Option Char} {ts us : List Token}
    (h : Cut lineStart next? ts) (hrel : List.Forall₂ Token.Respells ts us) :
    Cut lineStart next? us := by
  induction hrel generalizing lineStart with
  | nil => trivial
  | @cons t u ts us htu hrel ih =>
    obtain ⟨hshape, hnext, hrest⟩ := h
    refine ⟨htu.wellShaped hshape, ?_, by rw [htu.kind_eq]; exact ih hrest⟩
    rw [htu.absorbs_eq]
    -- what comes after `t` and what comes after `u` begin alike
    cases hrel with
    | nil => exact hnext
    | @cons t' u' _ _ htu' _ =>
      rcases htu'.first?_cases hrest.1 with heq | ⟨c, d, hc, hd, hstartc, hstartd⟩
      · simp only [Token.headChar?, heq] at hnext ⊢
        exact hnext
      · simp only [Token.headChar?, hc, hd, Option.any_some] at hnext ⊢
        rw [← hnext]
        exact t.absorbs_wordStart hstartd hstartc

/-! ## §4. Occurrences. -/

/-- `p` may stand for `o` in a respelled text, with neighbours that may stand for the
    neighbours of `o`. -/
def Occurrence.Respells (o p : Occurrence) : Prop :=
  o.token.Respells p.token ∧ Option.Rel Token.Respells o.before p.before
    ∧ Option.Rel Token.Respells o.after p.after

theorem any_isPunctuation_eq {t? u? : Option Token} (h : Option.Rel Token.Respells t? u?)
    (text : String) : u?.any (·.isPunctuation text) = t?.any (·.isPunctuation text) := by
  cases h with
  | some h => exact h.isPunctuation_eq text
  | none => rfl

theorem Occurrence.Respells.isMember_eq {o p : Occurrence} (h : o.Respells p) :
    p.isMember = o.isMember :=
  any_isPunctuation_eq h.2.1 "."

theorem any_isMark_eq {t? u? : Option Token} (h : Option.Rel Token.Respells t? u?) :
    u?.any (fun t => t.isPunctuation "." || t.isPunctuation "#")
      = t?.any (fun t => t.isPunctuation "." || t.isPunctuation "#") := by
  cases h with
  | some h => simp [h.isPunctuation_eq]
  | none => rfl

theorem Occurrence.Respells.isRenameSite_eq {o p : Occurrence} (h : o.Respells p) :
    p.isRenameSite = o.isRenameSite := by
  obtain ⟨htoken, hbefore, hafter⟩ := h
  simp only [Occurrence.isRenameSite, Token.isIdentifier, htoken.kind_eq, any_isMark_eq hbefore,
    any_isPunctuation_eq hafter]

theorem find?_respelled {ts us : List Token} (h : List.Forall₂ Token.Respells ts us) :
    Option.Rel Token.Respells (ts.find? (!·.isTrivia)) (us.find? (!·.isTrivia)) := by
  induction h with
  | nil => exact .none
  | @cons t u ts us htu _ ih =>
    simp only [List.find?_cons, htu.isTrivia_eq]
    cases t.isTrivia with
    | true => exact ih
    | false => exact .some htu

/-- Respelling a text respells each of its occurrences in place. -/
theorem occurrencesAfter_respelled {before? before'? : Option Token} {ts us : List Token}
    (hbefore : Option.Rel Token.Respells before? before'?)
    (h : List.Forall₂ Token.Respells ts us) :
    List.Forall₂ Occurrence.Respells (occurrencesAfter before? ts)
      (occurrencesAfter before'? us) := by
  induction h generalizing before? before'? with
  | nil => exact .nil
  | @cons t u ts us htu hrest ih =>
    refine .cons ⟨htu, hbefore, find?_respelled hrest⟩ (ih ?_)
    rw [htu.isTrivia_eq]
    cases t.isTrivia with
    | true => exact hbefore
    | false => exact .some htu

/-! ## §5. Respelling a text. -/

/-- Every new spelling is an identifier. -/
def SpellsIdentifiers (spelling? : String → Option String) : Prop :=
  ∀ name spelling, spelling? name = some spelling → isIdentifier spelling = true

/-- The spelling of the token of an occurrence after a respelling. -/
def Occurrence.spellingAfter (spelling? : String → Option String) (o : Occurrence) : String :=
  if o.isRenameSite then (spelling? o.token.text).getD o.token.text else o.token.text

theorem Occurrence.respell_eq (spelling? : String → Option String) (o : Occurrence) :
    o.respell spelling? = ⟨o.token.kind, o.spellingAfter spelling?⟩ := by
  unfold Occurrence.respell Occurrence.spellingAfter
  cases spelling? o.token.text <;> cases o.isRenameSite <;> rfl

/-- Respelling changes no kind. -/
theorem map_kind_respell (spelling? : String → Option String) (ts : List Token) :
    (respell spelling? ts).map (·.kind) = ts.map (·.kind) := by
  have htokens := occurrencesAfter_map_token none ts
  rw [respell, List.map_map]
  nth_rewrite 2 [← htokens]
  rw [List.map_map]
  refine List.map_congr_left fun o _ => ?_
  rw [Function.comp_apply, Occurrence.respell_eq]
  rfl

theorem Occurrence.kind_of_isRenameSite {o : Occurrence} (h : o.isRenameSite = true) :
    o.token.kind = .identifier := by
  simp only [Occurrence.isRenameSite, Bool.and_eq_true, Token.isIdentifier, beq_iff_eq] at h
  exact h.1.1

variable {spelling? : String → Option String} (hspell : SpellsIdentifiers spelling?)
include hspell

theorem Occurrence.respells_respell (o : Occurrence) :
    o.token.Respells (o.respell spelling?) := by
  rw [Occurrence.respell_eq]
  cases hsite : o.isRenameSite with
  | false => exact .inl (by simp [Occurrence.spellingAfter, hsite])
  | true =>
    have hkind := Occurrence.kind_of_isRenameSite hsite
    cases hname : spelling? o.token.text with
    | none => exact .inl (by simp [Occurrence.spellingAfter, hname])
    | some spelling =>
      refine .inr ⟨hkind, hkind, ?_⟩
      simpa [Occurrence.spellingAfter, hsite, hname] using hspell _ _ hname

theorem respells_respell (ts : List Token) :
    List.Forall₂ Token.Respells ts (respell spelling? ts) := by
  have htokens := occurrencesAfter_map_token none ts
  rw [respell, List.forall₂_map_right_iff]
  nth_rewrite 1 [← htokens]
  rw [List.forall₂_map_left_iff, occurrences, List.forall₂_same]
  exact fun o _ => o.respells_respell hspell

/-- The lexer reads a respelled text token for token. -/
theorem tokenize_spell_respell (text : String) :
    tokenize (Token.spell (respell spelling? (tokenize text)))
      = respell spelling? (tokenize text) :=
  ((cut_tokenize text).respelled (respells_respell hspell _)).tokenize_spell

/-- In a respelled text, rename sites and members stand where they stood. -/
theorem occurrences_respell (ts : List Token) :
    List.Forall₂ (fun o p => p.token = o.respell spelling? ∧ p.isRenameSite = o.isRenameSite
      ∧ p.isMember = o.isMember) (occurrences ts) (occurrences (respell spelling? ts)) := by
  have htokens : List.Forall₂ (fun o p => p.token = o.respell spelling?) (occurrences ts)
      (occurrences (respell spelling? ts)) := by
    have heq := occurrencesAfter_map_token none (respell spelling? ts)
    rw [respell, eq_comm, ← List.forall₂_eq_eq_eq, List.forall₂_map_left_iff,
      List.forall₂_map_right_iff] at heq
    exact heq.imp fun o p h => h.symm
  -- roles depend on kinds and punctuation only
  have hroles := occurrencesAfter_respelled .none (respells_respell hspell ts)
  exact List.Forall₂.mp (fun o p ht hr => ⟨ht, hr.isRenameSite_eq, hr.isMember_eq⟩) htokens hroles

/-- A respelling is undone by another that takes every new spelling of a rename site back
    to the old one. -/
theorem respell_respell {undo? : String → Option String} {ts : List Token}
    (hundo : ∀ o ∈ occurrences ts, o.isRenameSite = true →
      (undo? (o.spellingAfter spelling?)).getD (o.spellingAfter spelling?) = o.token.text) :
    respell undo? (respell spelling? ts) = ts := by
  obtain ⟨hlength, hocc⟩ := List.forall₂_iff_zip.1 (occurrences_respell hspell ts)
  have hback : List.Forall₂ (fun o p => o.token = p.respell undo?) (occurrences ts)
      (occurrences (respell spelling? ts)) := by
    refine List.forall₂_iff_zip.2 ⟨hlength, fun {o p} hop => ?_⟩
    obtain ⟨htoken, hsite, -⟩ := hocc hop
    rw [Occurrence.respell_eq] at htoken ⊢
    unfold Occurrence.spellingAfter
    rw [hsite, htoken]
    -- other tokens were not touched the first time, nor are they the second time
    cases ho : o.isRenameSite with
    | false => simp [Occurrence.spellingAfter, ho]
    | true =>
      have hname := hundo o (List.of_mem_zip hop).1 ho
      simp [hname]
  rw [← List.forall₂_map_right_iff, ← List.forall₂_map_left_iff (f := Occurrence.token),
    List.forall₂_eq_eq_eq] at hback
  rw [respell, ← hback]
  exact occurrencesAfter_map_token none ts

end GlslMinifier
