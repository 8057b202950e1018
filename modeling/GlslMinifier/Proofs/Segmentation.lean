/-
  GlslMinifier.Proofs.Segmentation — which token lists the lexer produces.

  The lexer reads ahead, so the same token list may or may not come back when its text is
  read again.  Whether it does can be told token by token: the text of each token must be
  a lexeme of its kind (`Token.WellShaped`), and the character after it must not continue
  the lexeme (`Token.absorbs`).  A list that meets both everywhere is a cut (`Cut`).

  Main results:
    * `scan_eq_iff`, `tokenize_eq_iff` — the lexer finds the one cut of its text
    * `scan_append` — a lexeme that nothing continues is the first token
    * `cut_append` — a cut is checked piece by piece
    * `tokenize_append_newline` — lexing starts afresh after a line break
-/
import GlslMinifier.Proofs.CharClass

namespace GlslMinifier

/-! ## §1. Lexemes.

A lexeme is described in two parts: what its characters are (`Kind.Shape`), and which
characters it would go on with if they came next (`Kind.absorbs`). -/

/-- Whether a number that reads `text` is hexadecimal. -/
def spellsHex : List Char → Bool
  | [] => false
  | c :: cs => isHex c cs

/-- Whether a number whose last character so far is `prev` goes on with `c`. -/
def numberGoesOn (hex : Bool) (prev c : Char) : Bool :=
  isNumberChar c || (!hex && isSign c && isExponentMark prev)

/-- Whether a number whose last character so far is `prev` goes on with all of a text. -/
def isNumberRun (hex : Bool) (prev : Char) : List Char → Bool
  | [] => true
  | c :: cs => numberGoesOn hex prev c && isNumberRun hex c cs

/-- What the characters of a token of this kind are, where `lineStart` says whether a `#`
    would open a directive. -/
def Kind.Shape (lineStart : Bool) : Kind → List Char → Prop
  | .newline, text => text = ['\n']
  | .whitespace, text => text ≠ [] ∧ ∀ c ∈ text, isBlank c = true
  | .directive, text => lineStart = true ∧ text.head? = some '#' ∧ '\n' ∉ text
  | .comment, text =>
    (∃ body, text = '/' :: '/' :: body ∧ '\n' ∉ body)
      ∨ ∃ body, text = '/' :: '*' :: body ∧ ∀ found ∈ splitClose? body, found.2 = []
  | .identifier, text =>
    ∃ c cs, text = c :: cs ∧ isWordStart c = true ∧ ∀ d ∈ cs, isWordChar d = true
  | .number, text =>
    ∃ c cs, text = c :: cs ∧ (c.isDigit = true ∨ c = '.' ∧ cs.head?.any Char.isDigit = true)
      ∧ isNumberRun (isHex c cs) c cs = true
  | .punctuation, text =>
    ∃ c, text = [c] ∧ c ≠ '\n' ∧ isBlank c = false ∧ isWordStart c = false
      ∧ c.isDigit = false ∧ (c = '#' → lineStart = false)

/-- Whether a comment that reads `text` goes on with `c`: a line comment up to the line
    break, a block comment until it is closed. -/
def commentAbsorbs : List Char → Char → Bool
  | '/' :: '*' :: body, _ => (splitClose? body).isNone
  | _, c => c != '\n'

/-- A comment that ends inside a line is closed, so that nothing continues it. -/
theorem commentAbsorbs_of_ne {text : List Char} {c : Char} (hc : c ≠ '\n')
    (h : commentAbsorbs text c = false) (d : Char) : commentAbsorbs text d = false := by
  fun_cases commentAbsorbs text c with
  | case1 => exact h
  | case2 =>
    rw [commentAbsorbs] at h
    · simp [hc] at h
    · assumption

/-- Whether a token of this kind that reads `text` goes on with `c`.  A slash or a dot
    goes on as a token of another kind. -/
def Kind.absorbs (kind : Kind) (text : List Char) (c : Char) : Bool :=
  match kind with
  | .newline => false
  | .whitespace => isBlank c
  | .directive => c != '\n'
  | .comment => commentAbsorbs text c
  | .identifier => isWordChar c
  | .number => text.getLast?.any (numberGoesOn (spellsHex text) · c)
  | .punctuation =>
    (text == ['/'] && (c == '/' || c == '*')) || (text == ['.'] && c.isDigit)

theorem Kind.absorbs_number (c : Char) (cs : List Char) :
    Kind.number.absorbs (c :: cs) = numberGoesOn (isHex c cs) (cs.getLast?.getD c) := by
  funext d
  simp [Kind.absorbs, spellsHex, List.getLast?_cons]

/-- A number goes on with number characters and with signs only. -/
theorem Kind.absorbs_number_of_plain {c : Char} (hchar : isNumberChar c = false)
    (hsign : isSign c = false) (text : List Char) : Kind.number.absorbs text c = false := by
  show text.getLast?.any (numberGoesOn (spellsHex text) · c) = false
  unfold numberGoesOn
  rw [hchar, hsign]
  cases text.getLast? with
  | none => rfl
  | some prev => simp

namespace Token

/-- The text of the token is a lexeme of its kind. -/
def WellShaped (lineStart : Bool) (t : Token) : Prop := t.kind.Shape lineStart t.text.toList

/-- Whether the lexer would go on with `c` after `t`. -/
def absorbs (t : Token) : Char → Bool := t.kind.absorbs t.text.toList

end Token

theorem Kind.Shape.ne_nil {kind : Kind} {lineStart : Bool} {text : List Char}
    (h : kind.Shape lineStart text) : text ≠ [] := by
  cases kind with
  | newline => simp_all [Kind.Shape]
  | whitespace => exact h.1
  | directive =>
    intro heq
    subst heq
    simp [Kind.Shape] at h
  | comment => rcases h with ⟨body, rfl, -⟩ | ⟨body, rfl, -⟩ <;> simp
  | identifier =>
    obtain ⟨c, cs, rfl, -⟩ := h
    simp
  | number =>
    obtain ⟨c, cs, rfl, -⟩ := h
    simp
  | punctuation =>
    obtain ⟨c, rfl, -⟩ := h
    simp

/-! ## §2. Reading one lexeme. -/

theorem splitRun_all {p : Char → Bool} (cs : List Char) :
    ∀ c ∈ (splitRun p cs).1, p c = true :=
  List.all_eq_true.1 List.all_takeWhile

theorem splitRun_stops {p : Char → Bool} (cs : List Char) :
    (splitRun p cs).2.head?.any p = false := by
  show (cs.dropWhile p).head?.any p = false
  have hhead := List.head?_dropWhile_not p cs
  cases hd : (cs.dropWhile p).head? with
  | none => rfl
  | some c => simpa [hd] using hhead

theorem isNumberRun_append (hex : Bool) (prev : Char) (cs ds : List Char) :
    isNumberRun hex prev (cs ++ ds)
      = (isNumberRun hex prev cs && isNumberRun hex (cs.getLast?.getD prev) ds) := by
  induction cs generalizing prev with
  | nil => rfl
  | cons c cs ih =>
    rw [List.cons_append, isNumberRun, ih, isNumberRun, List.getLast?_cons, Option.getD_some,
      Bool.and_assoc]

theorem splitNumber_eq {hex : Bool} {prev : Char} {cs rest : List Char}
    (hrun : isNumberRun hex prev cs = true)
    (hnext : rest.head?.any (numberGoesOn hex (cs.getLast?.getD prev)) = false) :
    splitNumber hex prev (cs ++ rest) = (cs, rest) := by
  induction cs generalizing prev with
  | nil =>
    cases rest with
    | nil => rfl
    | cons c rest => simp_all [splitNumber, numberGoesOn]
  | cons c cs ih =>
    simp only [isNumberRun, Bool.and_eq_true] at hrun
    rw [List.getLast?_cons, Option.getD_some] at hnext
    simp only [List.cons_append, splitNumber]
    rw [if_pos (by simpa [numberGoesOn] using hrun.1), ih hrun.2 hnext]

theorem splitNumber_isNumberRun (hex : Bool) (prev : Char) (cs : List Char) :
    isNumberRun hex prev (splitNumber hex prev cs).1 = true := by
  fun_induction splitNumber hex prev cs with
  | case1 => rfl
  | case2 prev c cs hc tail ih =>
    simp only [isNumberRun, Bool.and_eq_true]
    exact ⟨hc, ih⟩
  | case3 => rfl

theorem splitNumber_stops (hex : Bool) (prev : Char) (cs : List Char) :
    (splitNumber hex prev cs).2.head?.any
      (numberGoesOn hex ((splitNumber hex prev cs).1.getLast?.getD prev)) = false := by
  fun_induction splitNumber hex prev cs with
  | case1 => rfl
  | case2 prev c cs hc tail ih =>
    rw [List.getLast?_cons, Option.getD_some]
    exact ih
  | case3 prev c cs hc => simpa [numberGoesOn] using hc

/-- The mark of a hexadecimal number is part of the number, not of what follows. -/
theorem isHex_append {c : Char} {cs rest : List Char}
    (hnext : rest.head?.any isNumberChar = false) : isHex c (cs ++ rest) = isHex c cs := by
  cases cs with
  | cons d ds => rfl
  | nil =>
    cases rest with
    | nil => rfl
    | cons d rest =>
      -- were the next character the mark, the number would go on with it
      have hx : (d == 'x' || d == 'X') = false := by
        cases hd : (d == 'x' || d == 'X') with
        | false => rfl
        | true =>
          simp only [Bool.or_eq_true, beq_iff_eq] at hd
          have hplain : isNumberChar d = false := hnext
          rcases hd with rfl | rfl <;> exact absurd hplain (by decide)
      simp_all [isHex]

theorem isHex_splitNumber (hex : Bool) (c : Char) (cs : List Char) :
    isHex c (splitNumber hex c cs).1 = isHex c cs := by
  have hnext : (splitNumber hex c cs).2.head?.any isNumberChar = false := by
    have hstops := splitNumber_stops hex c cs
    cases hd : (splitNumber hex c cs).2.head? <;> simp_all [numberGoesOn]
  rw [← isHex_append hnext, splitNumber_append]

theorem splitClose?_eq_none_iff {cs : List Char} :
    splitClose? cs = none ↔ ¬ ['*', '/'] <:+: cs := by
  fun_induction splitClose? cs with
  | case1 => simp
  | case2 rest => simp [List.infix_cons_iff]
  | case3 c cs hnot ih =>
    rw [Option.map_eq_none_iff, ih, List.infix_cons_iff, not_or, iff_and_self]
    intro _ hfirst
    rw [List.cons_prefix_cons] at hfirst
    obtain ⟨rfl, rest, rfl⟩ := hfirst
    exact hnot rest rfl rfl

/-- A closing mark that is found in a text is found there whatever comes after. -/
theorem splitClose?_append_right {cs body rest : List Char} (more : List Char)
    (h : splitClose? cs = some (body, rest)) :
    splitClose? (cs ++ more) = some (body, rest ++ more) := by
  fun_induction splitClose? cs generalizing body rest with
  | case1 => simp at h
  | case2 tail =>
    cases h
    simp [splitClose?]
  | case3 c cs hc ih =>
    obtain ⟨found, hfound, heq⟩ := Option.map_eq_some_iff.1 h
    cases heq
    rw [List.cons_append, splitClose?]
    · rw [ih hfound]
      rfl
    · -- no closing mark begins at `c`, whatever stands behind the text
      intro more' hstar hslash
      subst hstar
      cases cs with
      | nil => simp [splitClose?] at hfound
      | cons d cs =>
        obtain ⟨rfl, -⟩ := List.cons.inj hslash
        exact hc cs rfl rfl

/-- The characters up to a closing mark end with the only closing mark in them. -/
theorem splitClose?_body {cs body rest : List Char}
    (h : splitClose? cs = some (body, rest)) : splitClose? body = some (body, []) := by
  fun_induction splitClose? cs generalizing body rest with
  | case1 => simp at h
  | case2 tail =>
    cases h
    rfl
  | case3 c cs hc ih =>
    obtain ⟨⟨body', rest'⟩, hfound, heq⟩ := Option.map_eq_some_iff.1 h
    cases heq
    have hcs := splitClose?_append hfound
    rw [splitClose?]
    · rw [ih hfound]
      rfl
    · -- nor does one begin at `c` in the part up to the mark
      intro more hstar hslash
      have hbody : body' = '/' :: more := hslash
      rw [hbody] at hcs
      exact hc (more ++ rest') hstar hcs.symm

/-- A lexeme that the next character does not continue is read whole. -/
theorem Kind.Shape.extent_eq {kind : Kind} {lineStart : Bool} {c : Char} {cs rest : List Char}
    (hshape : kind.Shape lineStart (c :: cs))
    (hnext : rest.head?.any (kind.absorbs (c :: cs)) = false) :
    kind.extent c (cs ++ rest) = (cs, rest) := by
  cases kind with
  | newline => simp_all [Kind.Shape, Kind.extent]
  | whitespace =>
    exact splitRun_eq (fun d hd => hshape.2 d (List.mem_cons_of_mem _ hd)) hnext
  | directive =>
    refine splitRun_eq (fun d hd => ?_) hnext
    have hmem : d ≠ '\n' := fun h => hshape.2.2 (h ▸ List.mem_cons_of_mem _ hd)
    simpa using hmem
  | comment =>
    rcases hshape with ⟨body, heq, hbody⟩ | ⟨body, heq, hclosed⟩
    · obtain ⟨rfl, rfl⟩ := List.cons.inj heq
      show splitRun (· != '\n') ('/' :: body ++ rest) = _
      -- a line comment is a run like a directive
      refine splitRun_eq (fun d hd => ?_) hnext
      have hmem : d ≠ '\n' := by
        intro heq
        subst heq
        simp_all
      simpa using hmem
    · obtain ⟨rfl, rfl⟩ := List.cons.inj heq
      simp only [Kind.extent, List.cons_append, splitComment]
      -- a block comment is closed here, or it reaches to the end of the text
      cases hfound : splitClose? body with
      | some found =>
        obtain ⟨inside, after⟩ := found
        obtain rfl : after = [] := hclosed _ hfound
        rw [splitClose?_append_right rest hfound, ← splitClose?_append hfound]
        simp
      | none =>
        cases rest with
        | nil => simp [hfound]
        | cons d rest => simp [Kind.absorbs, commentAbsorbs, hfound] at hnext
  | identifier =>
    obtain ⟨d, ds, heq, -, hall⟩ := hshape
    obtain ⟨rfl, rfl⟩ := List.cons.inj heq
    exact splitRun_eq hall hnext
  | number =>
    obtain ⟨d, ds, heq, -, hrun⟩ := hshape
    obtain ⟨rfl, rfl⟩ := List.cons.inj heq
    rw [absorbs_number] at hnext
    have hplain : rest.head?.any isNumberChar = false := by
      cases hd : rest.head? <;> simp_all [numberGoesOn]
    simp only [Kind.extent, isHex_append hplain]
    exact splitNumber_eq hrun hnext
  | punctuation =>
    obtain ⟨d, heq, -⟩ := hshape
    obtain ⟨rfl, rfl⟩ := List.cons.inj heq
    rfl

/-- The lexer sees the kind of a lexeme that the next character does not continue. -/
theorem Kind.Shape.starting_eq {kind : Kind} {lineStart : Bool} {c : Char}
    {cs rest : List Char} (hshape : kind.Shape lineStart (c :: cs))
    (hnext : rest.head?.any (kind.absorbs (c :: cs)) = false) :
    Kind.starting lineStart c (cs ++ rest).head? = kind := by
  cases kind with
  | newline =>
    obtain ⟨rfl, rfl⟩ := List.cons.inj hshape
    rfl
  | whitespace =>
    have hblank := hshape.2 c List.mem_cons_self
    have hc : c ≠ '\n' := by
      intro heq
      subst heq
      exact absurd hblank (by decide)
    simp [Kind.starting, hc, hblank]
  | directive =>
    obtain ⟨rfl, hc, -⟩ := hshape
    obtain rfl : c = '#' := by simpa using hc
    rfl
  | comment =>
    rcases hshape with ⟨body, heq, -⟩ | ⟨body, heq, -⟩ <;>
      obtain ⟨rfl, rfl⟩ := List.cons.inj heq <;> cases lineStart <;> rfl
  | identifier =>
    obtain ⟨d, ds, heq, hstart, -⟩ := hshape
    obtain ⟨rfl, rfl⟩ := List.cons.inj heq
    have hword := isWordChar_of_isWordStart hstart
    have hmark := ne_of_isWordChar hword
    simp_all [Kind.starting, isBlank_eq_false_of_isWordChar]
  | number =>
    obtain ⟨d, ds, heq, hstart, -⟩ := hshape
    obtain ⟨rfl, rfl⟩ := List.cons.inj heq
    rcases hstart with hdigit | ⟨rfl, hdigit⟩
    · have hword := isWordChar_of_isDigit hdigit
      have hmark := ne_of_isWordChar hword
      simp_all [Kind.starting, isBlank_eq_false_of_isWordChar, isWordStart_eq_false_of_isDigit]
    · cases cs with
      | nil => simp at hdigit
      | cons d ds =>
        have hd : d.isDigit = true := hdigit
        have hdot : isBlank '.' = false ∧ isWordStart '.' = false := by decide
        simp [Kind.starting, hd, hdot]
  | punctuation =>
    obtain ⟨d, heq, hline, hblank, hstart, hdigit, hmark⟩ := hshape
    obtain ⟨rfl, rfl⟩ := List.cons.inj heq
    -- a slash or a dot is a token of its own only before certain characters
    cases hnext' : rest.head? with
    | none => simp_all [Kind.starting]
    | some e =>
      simp_all [Kind.starting, Kind.absorbs]
      grind

theorem comment_opens {c : Char} {cs : List Char}
    (h : (c == '/' && (cs.head? == some '/' || cs.head? == some '*')) = true) :
    c = '/' ∧ ∃ body, cs = '/' :: body ∨ cs = '*' :: body := by
  simp only [Bool.and_eq_true, Bool.or_eq_true, beq_iff_eq] at h
  refine ⟨h.1, ?_⟩
  cases cs with
  | nil => simp at h
  | cons d ds => exact ⟨ds, by simpa using h.2⟩

/-- What the first character of a token says about its text. -/
theorem Kind.shape_extent (lineStart : Bool) (c : Char) (cs : List Char) :
    (Kind.starting lineStart c cs.head?).Shape lineStart
      (c :: ((Kind.starting lineStart c cs.head?).extent c cs).1) := by
  -- the cases are, in order: line break, blanks, directive, comment, identifier, number,
  -- punctuation
  fun_cases Kind.starting lineStart c cs.head? with
  | case1 h =>
    obtain rfl : c = '\n' := by simpa using h
    rfl
  | case2 _ h =>
    refine ⟨List.cons_ne_nil _ _, fun d hd => ?_⟩
    rcases List.mem_cons.1 hd with rfl | hd
    · exact h
    · exact splitRun_all cs d hd
  | case3 _ _ h =>
    obtain ⟨rfl, hline⟩ : c = '#' ∧ lineStart = true := by simpa using h
    refine ⟨hline, rfl, fun hd => ?_⟩
    rcases List.mem_cons.1 hd with hd | hd
    · exact absurd hd (by decide)
    · exact absurd (splitRun_all cs _ hd) (by decide)
  | case4 _ _ _ h =>
    obtain ⟨rfl, body, rfl | rfl⟩ := comment_opens h
    · exact .inl ⟨_, rfl, fun hd => absurd (splitRun_all body _ hd) (by decide)⟩
    · refine .inr ?_
      simp only [Kind.extent, splitComment]
      cases hfound : splitClose? body with
      | none => exact ⟨body, rfl, by simp [hfound]⟩
      | some found => exact ⟨found.1, rfl, by simp [splitClose?_body hfound]⟩
  | case5 _ _ _ _ h => exact ⟨c, _, rfl, h, splitRun_all cs⟩
  | case6 _ _ _ _ _ h =>
    refine ⟨c, _, rfl, ?_, ?_⟩
    · simp only [Bool.or_eq_true, Bool.and_eq_true, beq_iff_eq] at h
      refine h.imp_right fun hpoint => ⟨hpoint.1, ?_⟩
      have hdigit := hpoint.2
      cases cs with
      | nil => simp at hdigit
      | cons d ds =>
        have hplain := isNumberChar_of_isWordChar (isWordChar_of_isDigit hdigit)
        simpa [Kind.extent, splitNumber, hplain] using hdigit
    · simp only [Kind.extent, isHex_splitNumber]
      exact splitNumber_isNumberRun _ c cs
  | case7 hline hblank hmark _ hstart hdigit =>
    simp only [Bool.or_eq_true, not_or, Bool.not_eq_true] at hblank hstart hdigit
    refine ⟨c, rfl, by simpa using hline, hblank, hstart, hdigit.1, ?_⟩
    intro heq
    subst heq
    simpa using hmark

/-- A token is read up to a character that does not continue it. -/
theorem Kind.extent_stops (lineStart : Bool) (c : Char) (cs : List Char) :
    ((Kind.starting lineStart c cs.head?).extent c cs).2.head?.any
      ((Kind.starting lineStart c cs.head?).absorbs
        (c :: ((Kind.starting lineStart c cs.head?).extent c cs).1)) = false := by
  -- the cases are those of `Kind.shape_extent`
  fun_cases Kind.starting lineStart c cs.head? with
  | case1 => cases cs <;> rfl
  | case2 => exact splitRun_stops cs
  | case3 => exact splitRun_stops cs
  | case4 _ _ _ h =>
    obtain ⟨rfl, body, rfl | rfl⟩ := comment_opens h
    · exact splitRun_stops ('/' :: body)
    · simp only [Kind.extent, splitComment]
      cases hfound : splitClose? body with
      | none => rfl
      | some found =>
        cases found.2.head? <;> simp [Kind.absorbs, commentAbsorbs, splitClose?_body hfound]
  | case5 => exact splitRun_stops cs
  | case6 =>
    rw [absorbs_number]
    simp only [Kind.extent, isHex_splitNumber]
    exact splitNumber_stops _ c cs
  | case7 _ _ _ hslash _ hdigit =>
    cases hnext : cs.head? with
    | none => simp [Kind.extent, hnext]
    | some d => simp_all [Kind.extent, Kind.absorbs]

/-! ## §3. Cuts. -/

/-- The first character of a token list, or `next?` if the list is empty. -/
def Token.headChar? (next? : Option Char) : List Token → Option Char
  | [] => next?
  | t :: _ => t.first?

/-- Every token is a lexeme that the character after it does not continue, where `next?`
    stands after the last one. -/
def Cut (lineStart : Bool) (next? : Option Char) : List Token → Prop
  | [] => True
  | t :: ts =>
    t.WellShaped lineStart ∧ (Token.headChar? next? ts).any t.absorbs = false
      ∧ Cut (t.kind.keepsLineStart lineStart) next? ts

/-- Whether a `#` would open a directive after the tokens. -/
def lineStartAfter (lineStart : Bool) (ts : List Token) : Bool :=
  ts.foldl (fun start t => t.kind.keepsLineStart start) lineStart

theorem headChar?_append (next? : Option Char) (ts us : List Token) :
    Token.headChar? next? (ts ++ us) = Token.headChar? (Token.headChar? next? us) ts := by
  cases ts <;> rfl

/-- A cut is checked piece by piece. -/
theorem cut_append {lineStart : Bool} {next? : Option Char} {ts us : List Token} :
    Cut lineStart next? (ts ++ us) ↔ Cut lineStart (Token.headChar? next? us) ts
      ∧ Cut (lineStartAfter lineStart ts) next? us := by
  induction ts generalizing lineStart with
  | nil => simp [Cut, lineStartAfter]
  | cons t ts ih =>
    simp only [List.cons_append, Cut, headChar?_append, ih, lineStartAfter, List.foldl_cons,
      and_assoc]

theorem Token.WellShaped.exists_cons {lineStart : Bool} {t : Token}
    (h : t.WellShaped lineStart) : ∃ c cs, t.text.toList = c :: cs :=
  List.exists_cons_of_ne_nil (Kind.Shape.ne_nil h)

theorem Cut.exists_wellShaped {lineStart : Bool} {next? : Option Char} {ts : List Token}
    (h : Cut lineStart next? ts) {t : Token} (ht : t ∈ ts) :
    ∃ start, t.WellShaped start := by
  induction ts generalizing lineStart with
  | nil => simp at ht
  | cons u us ih =>
    rcases List.mem_cons.1 ht with rfl | ht
    · exact ⟨lineStart, h.1⟩
    · exact ih h.2.2 ht

theorem Cut.head?_spell {lineStart : Bool} {ts : List Token} (h : Cut lineStart none ts) :
    (Token.spell ts).toList.head? = Token.headChar? none ts := by
  cases ts with
  | nil => rfl
  | cons t ts =>
    obtain ⟨c, cs, hc⟩ := h.1.exists_cons
    simp [Token.headChar?, Token.first?, hc]

theorem Cut.getLast?_spell {lineStart : Bool} {next? : Option Char} {ts : List Token}
    (h : Cut lineStart next? ts) :
    (Token.spell ts).toList.getLast? = ts.getLast?.bind Token.last? := by
  induction ts generalizing lineStart with
  | nil => rfl
  | cons t ts ih =>
    obtain ⟨-, -, hrest⟩ := h
    rw [Token.spell_cons, String.toList_append, List.getLast?_append, ih hrest]
    -- the last token of the rest has a text, whose last character is the last of all
    cases ts with
    | nil => rfl
    | cons u us =>
      have hmem : (u :: us).getLast (List.cons_ne_nil u us) ∈ u :: us := List.getLast_mem _
      obtain ⟨start, hshape⟩ := hrest.exists_wellShaped hmem
      obtain ⟨c, cs, hc⟩ := hshape.exists_cons
      rw [List.getLast?_cons_cons, List.getLast?_eq_some_getLast (List.cons_ne_nil u us),
        Option.bind_some, Token.last?, hc, List.getLast?_cons]
      rfl

/-- The last token does not go on with what stands behind the cut. -/
theorem Cut.last_stops {lineStart : Bool} {next? : Option Char} {ts : List Token} {t : Token}
    (h : Cut lineStart next? (ts ++ [t])) : next?.any t.absorbs = false :=
  (cut_append.1 h).2.2.1

/-- The lexer finds a cut again in the text that it spells. -/
theorem Cut.scan_spell {lineStart : Bool} {ts : List Token} (h : Cut lineStart none ts) :
    scan lineStart (Token.spell ts).toList = ts := by
  induction ts generalizing lineStart with
  | nil => simp [scan]
  | cons t ts ih =>
    obtain ⟨hshape, hnext, hrest⟩ := h
    obtain ⟨c, cs, hc⟩ := hshape.exists_cons
    rw [← hrest.head?_spell] at hnext
    unfold Token.absorbs at hnext
    unfold Token.WellShaped at hshape
    rw [hc] at hnext hshape
    -- the lexer sees the kind of `t`, reads `t` whole, and goes on with the rest
    have htext : String.ofList (c :: cs) = t.text := by rw [← hc, String.ofList_toList]
    rw [Token.spell_cons, String.toList_append, hc, List.cons_append, scan,
      hshape.starting_eq hnext]
    simp only [hshape.extent_eq hnext, htext, ih hrest]

/-- What the lexer finds is a cut. -/
theorem cut_scan (lineStart : Bool) (cs : List Char) : Cut lineStart none (scan lineStart cs) := by
  fun_induction scan lineStart cs with
  | case1 => trivial
  | case2 lineStart c cs kind ahead ih =>
    refine ⟨?_, ?_, ih⟩
    · show kind.Shape lineStart (String.ofList (c :: ahead.1)).toList
      rw [String.toList_ofList]
      exact Kind.shape_extent lineStart c cs
    · rw [← ih.head?_spell, toList_spell_scan, Token.absorbs, String.toList_ofList]
      exact Kind.extent_stops lineStart c cs

/-- The lexer finds the one cut of its text. -/
theorem scan_eq_iff {lineStart : Bool} {cs : List Char} {ts : List Token} :
    scan lineStart cs = ts ↔ Cut lineStart none ts ∧ (Token.spell ts).toList = cs := by
  constructor
  · intro heq
    subst heq
    exact ⟨cut_scan lineStart cs, toList_spell_scan lineStart cs⟩
  · intro h
    rw [← h.2]
    exact h.1.scan_spell

/-- A lexeme that the next character does not continue is the first token. -/
theorem scan_append {lineStart : Bool} {t : Token} {rest : List Char}
    (h : t.WellShaped lineStart) (hnext : rest.head?.any t.absorbs = false) :
    scan lineStart (t.text.toList ++ rest)
      = t :: scan (t.kind.keepsLineStart lineStart) rest := by
  have hrest := cut_scan (t.kind.keepsLineStart lineStart) rest
  have hhead := hrest.head?_spell
  rw [toList_spell_scan] at hhead
  rw [hhead] at hnext
  refine scan_eq_iff.2 ⟨⟨h, hnext, hrest⟩, ?_⟩
  rw [Token.spell_cons, String.toList_append, toList_spell_scan]

theorem tokenize_eq_iff {text : String} {ts : List Token} :
    tokenize text = ts ↔ Cut true none ts ∧ Token.spell ts = text := by
  rw [tokenize, scan_eq_iff, String.toList_inj]

theorem cut_tokenize (text : String) : Cut true none (tokenize text) :=
  (tokenize_eq_iff.1 rfl).1

theorem Cut.tokenize_spell {ts : List Token} (h : Cut true none ts) :
    tokenize (Token.spell ts) = ts :=
  tokenize_eq_iff.2 ⟨h, rfl⟩

/-! ## §4. Line breaks. -/

/-- The token of a line break. -/
def Token.lineBreak : Token := ⟨.newline, "\n"⟩

/-- Only a block comment without an end goes on over a line break. -/
theorem Kind.absorbs_newline {kind : Kind} (h : kind ≠ .comment) (text : List Char) :
    kind.absorbs text '\n' = false := by
  cases kind with
  | comment => exact absurd rfl h
  | newline | whitespace | directive | identifier => rfl
  | number => exact Kind.absorbs_number_of_plain (by decide) (by decide) text
  | punctuation =>
    have hplain : Char.isDigit '\n' = false := by decide
    simp [Kind.absorbs, hplain]

/-- A character may follow a cut if the last token does not go on with it. -/
theorem Cut.before {lineStart : Bool} {ts : List Token} (h : Cut lineStart none ts) {c : Char}
    (hlast : ∀ t, ts.getLast? = some t → t.absorbs c = false) : Cut lineStart (some c) ts := by
  induction ts generalizing lineStart with
  | nil => trivial
  | cons t ts ih =>
    obtain ⟨hshape, hnext, hrest⟩ := h
    -- only the last token has a new character after it
    cases ts with
    | nil => exact ⟨hshape, hlast t rfl, trivial⟩
    | cons u us =>
      refine ⟨hshape, hnext, ih hrest fun v hv => hlast v ?_⟩
      rw [List.getLast?_cons_cons]
      exact hv

/-- A line break token cuts a list into two. -/
theorem cut_append_lineBreak {lineStart : Bool} {next? : Option Char} {ts us : List Token} :
    Cut lineStart next? (ts ++ Token.lineBreak :: us)
      ↔ Cut lineStart (some '\n') ts ∧ Cut true next? us := by
  have hshape : ∀ start, Token.lineBreak.WellShaped start := fun _ => rfl
  have hnext : (Token.headChar? next? us).any Token.lineBreak.absorbs = false := by
    cases Token.headChar? next? us <;> rfl
  rw [cut_append]
  simp only [Cut, hshape, hnext, true_and]
  rfl

/-- Lexing starts afresh after a line break, unless the line break is inside a block
    comment that never ends. -/
theorem tokenize_append_newline {first rest : String}
    (hclosed : ∀ t ∈ tokenize first, t.absorbs '\n' = false) :
    tokenize (first ++ "\n" ++ rest) = tokenize first ++ Token.lineBreak :: tokenize rest := by
  rw [tokenize_eq_iff, cut_append_lineBreak]
  refine ⟨⟨(cut_tokenize first).before fun t ht => hclosed t (List.mem_of_getLast? ht),
    cut_tokenize rest⟩, ?_⟩
  rw [Token.spell_append, Token.spell_cons, spell_tokenize, spell_tokenize, String.append_assoc]
  rfl

end GlslMinifier
