/-
  GlslMinifier.Proofs.LineBreak — lexing a text line by line.

  After a line break the lexer is in the state that it begins in, and no look-ahead of it
  reaches over one.  So the tokens of two texts with a line break between them are the
  tokens of the first, the line break, and the tokens of the second, which stand that much
  further on.  One kind of token takes in a line break and is not done with it: a block
  comment that has no closing mark.

  Main results:
    * `Token.locateFrom_append`, `Token.locateFrom_shift` — where joined tokens stand
    * `Cut.before_iff` — what may follow the tokens of a text
    * `absorbs_newline_iff` — what goes on over a line break
    * `locate_tokenize_newline_iff` — which texts are lexed apart from what follows
-/
import GlslMinifier.Proofs.ByteScan
import GlslMinifier.Proofs.Grammar
import GlslMinifier.Proofs.OpenComment

namespace GlslMinifier

/-! ## §1. Where joined tokens stand. -/

/-- A token and its span, `n` bytes further on. -/
def Span.shift (n : Nat) (located : Token × Span) : Token × Span :=
  (located.1, ⟨located.2.start + n, located.2.stop + n⟩)

namespace Token

theorem locateFrom_shift (start n : Nat) (ts : List Token) :
    locateFrom (start + n) ts = (locateFrom start ts).map (Span.shift n) := by
  induction ts generalizing start with
  | nil => rfl
  | cons t ts ih =>
    have hstop : start + n + t.text.utf8ByteSize = start + t.text.utf8ByteSize + n := by omega
    show (t, Span.mk (start + n) (start + n + t.text.utf8ByteSize))
        :: locateFrom (start + n + t.text.utf8ByteSize) ts
      = Span.shift n (t, ⟨start, start + t.text.utf8ByteSize⟩)
        :: (locateFrom (start + t.text.utf8ByteSize) ts).map (Span.shift n)
    rw [hstop, ih]
    rfl

/-- Tokens stand behind the text of the tokens before them. -/
theorem locateFrom_append (start : Nat) (ts us : List Token) :
    locateFrom start (ts ++ us)
      = locateFrom start ts ++ locateFrom (start + (spell ts).utf8ByteSize) us := by
  induction ts generalizing start with
  | nil => rfl
  | cons t ts ih =>
    rw [List.cons_append, locateFrom, ih, spell_cons, String.utf8ByteSize_append,
      ← Nat.add_assoc]
    rfl

end Token

/-- The tokens of two texts with a line break between them, where no token reaches from one
    of them into the other. -/
def locatedApart (first rest : String) : List (Token × Span) :=
  Token.locate (tokenize first)
    ++ (Token.lineBreak, ⟨first.utf8ByteSize, first.utf8ByteSize + 1⟩)
    :: (Token.locate (tokenize rest)).map (Span.shift (first.utf8ByteSize + 1))

theorem locate_append_lineBreak (first rest : String) :
    Token.locate (tokenize first ++ Token.lineBreak :: tokenize rest)
      = locatedApart first rest := by
  have hbreak : Token.lineBreak.text.utf8ByteSize = 1 := by decide
  have hshift := Token.locateFrom_shift 0 (first.utf8ByteSize + 1) (tokenize rest)
  rw [Nat.zero_add] at hshift
  unfold locatedApart Token.locate
  rw [Token.locateFrom_append, Token.locateFrom, spell_tokenize, Nat.zero_add, hbreak, hshift]

/-! ## §2. What goes on over a line break. -/

/-- A character may follow a cut just when the last token does not go on with it. -/
theorem Cut.before_iff {lineStart : Bool} {ts : List Token} (h : Cut lineStart none ts)
    {c : Char} :
    Cut lineStart (some c) ts ↔ ∀ t, ts.getLast? = some t → t.absorbs c = false := by
  constructor
  · intro hcut t hlast
    obtain ⟨before, rfl⟩ := List.getLast?_eq_some_iff.1 hlast
    exact hcut.last_stops
  · exact h.before

/-- A block comment whose closing mark is missing. -/
def Token.IsOpenComment (t : Token) : Prop :=
  t.kind = .comment ∧ BeginsBlockComment t.text.toList ∧ ∀ i, ¬ ClosesAt t.text.toList i

/-- A closing mark behind the opening one is one in the body. -/
theorem not_closesAt_iff {body : List Char} :
    (∀ i, ¬ ClosesAt ('/' :: '*' :: body) i) ↔ splitClose? body = none := by
  rw [splitClose?_eq_none_iff_drop]
  constructor
  · intro h i hmark
    exact h (i + 2) (closesAt_add_two.2 hmark)
  · intro h i hcloses
    obtain ⟨j, rfl⟩ := exists_of_closesAt hcloses
    exact h j (closesAt_add_two.1 hcloses)

theorem absorbs_newline_iff {t : Token} {start : Bool} (ht : t.WellShaped start) :
    t.absorbs '\n' = true ↔ t.IsOpenComment := by
  constructor
  · intro habsorbs
    obtain ⟨body, rfl, hopen⟩ := exists_body_of_absorbs_newline ht habsorbs
    unfold Token.IsOpenComment
    rw [String.toList_ofList]
    exact ⟨rfl, ⟨body, rfl⟩, not_closesAt_iff.2 hopen⟩
  · rintro ⟨hkind, ⟨body, hbody⟩, hcloses⟩
    have htext : t.text.toList = '/' :: '*' :: body := hbody.symm
    rw [htext, not_closesAt_iff] at hcloses
    unfold Token.absorbs
    rw [hkind, htext]
    show (splitClose? body).isNone = true
    rw [hcloses]
    rfl

/-! ## §3. Lexing apart. -/

/-- The last token of the list is a block comment without a closing mark. -/
def EndsInOpenComment (ts : List Token) : Prop :=
  ∃ t, ts.getLast? = some t ∧ t.IsOpenComment

theorem cut_before_newline_iff (text : String) :
    Cut true (some '\n') (tokenize text) ↔ ¬ EndsInOpenComment (tokenize text) := by
  rw [(cut_tokenize text).before_iff]
  have hlast : ∀ t, (tokenize text).getLast? = some t →
      (t.absorbs '\n' = true ↔ t.IsOpenComment) := by
    intro t ht
    obtain ⟨start, hshape⟩ := (cut_tokenize text).exists_wellShaped (List.mem_of_getLast? ht)
    exact absorbs_newline_iff hshape
  constructor
  · rintro h ⟨t, ht, hopen⟩
    rw [← hlast t ht, h t ht] at hopen
    exact Bool.false_ne_true hopen
  · intro h t ht
    rw [← Bool.not_eq_true, hlast t ht]
    intro hopen
    exact h ⟨t, ht, hopen⟩

/-- The tokens of the joined text are a cut of it just when the line break may follow the
    first part. -/
theorem tokenize_newline_iff (first rest : String) :
    tokenize (first ++ "\n" ++ rest) = tokenize first ++ Token.lineBreak :: tokenize rest
      ↔ ¬ EndsInOpenComment (tokenize first) := by
  have hspell : Token.spell (tokenize first ++ Token.lineBreak :: tokenize rest)
      = first ++ "\n" ++ rest := by
    rw [Token.spell_append, Token.spell_cons, spell_tokenize, spell_tokenize,
      String.append_assoc]
    rfl
  rw [tokenize_eq_iff, and_iff_left hspell, cut_append_lineBreak,
    and_iff_left (cut_tokenize rest), cut_before_newline_iff]

/-- **Lexing is done line by line, but for block comments that never end.**  The tokens of
    a text, a line break and another text are those of the first, the line break, and those
    of the second, which stand further on by what is before them: this holds of a text
    whose last token is no block comment without a closing mark, and of no other, whatever
    the second text is.  Cutting by bytes finds the same. -/
theorem locate_tokenize_newline_iff (first rest : String) :
    (Token.locate (tokenize (first ++ "\n" ++ rest)) = locatedApart first rest
        ↔ ¬ EndsInOpenComment (tokenize first))
      ∧ ((ByteScanner.atStart (first ++ "\n" ++ rest)).collect? = some (locatedApart first rest)
        ↔ ¬ EndsInOpenComment (tokenize first)) := by
  have hlocate : Token.locate (tokenize (first ++ "\n" ++ rest)) = locatedApart first rest
      ↔ ¬ EndsInOpenComment (tokenize first) := by
    rw [← tokenize_newline_iff first rest, ← locate_append_lineBreak]
    constructor
    · intro h
      -- the tokens are what is located
      have htokens := congrArg (List.map Prod.fst) h
      unfold Token.locate at htokens
      rwa [Token.map_fst_locateFrom, Token.map_fst_locateFrom] at htokens
    · intro h
      rw [h]
  refine ⟨hlocate, ?_⟩
  rw [ByteScanner.collect?_atStart, Option.some_inj]
  exact hlocate

/-- The star of an opening mark is not the star of a closing one: the comment goes on over
    the line break. -/
example : tokenize ("a/*/" ++ "\n" ++ "b") = [⟨.identifier, "a"⟩, ⟨.comment, "/*/\nb"⟩] := by
  decide +kernel

end GlslMinifier
