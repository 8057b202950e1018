/-
  GlslMinifier.Proofs.Grammar — the grammar of tokens.

  What a token may be is told here without the lexer: for each kind, where a token of it
  begins and how far it reaches.  Blanks, identifiers and numbers are the longest of their
  sort; directives and line comments reach to the end of the line; a block comment reaches
  through its first closing mark; punctuation is one character at which nothing else begins.
  The grammar depends on context in one place only: whether a `#` begins a directive is
  told by the tokens before it on its line.

  Main results:
    * `atLineStart_iff` — what the lexer remembers of the tokens before
    * `Kind.lexeme_iff` — the grammar of one token, in terms of the lexer's look-ahead
    * `cut_iff_lexemes` — the grammar of a list of tokens
    * `tokenize_unique_segmentation` — the lexer finds the one segmentation of a text
-/
import GlslMinifier.Proofs.Segmentation
import Mathlib.Data.List.Induction

namespace GlslMinifier

/-! ## §1. The grammar. -/

/-- `part` is the longest beginning of `text` that has the property. -/
structure IsLongest (p : List Char → Prop) (part text : List Char) : Prop where
  holds : p part
  begins : part <+: text
  longest : ∀ other, p other → other <+: text → other.length ≤ part.length

/-- A run of blanks. -/
def IsBlankRun (cs : List Char) : Prop := cs ≠ [] ∧ ∀ c ∈ cs, isBlank c = true

/-- Letters, digits and underscores, the first of them no digit. -/
def IsWordRun (cs : List Char) : Prop :=
  cs.head?.any isWordStart = true ∧ ∀ c ∈ cs, isWordChar c = true

/-- The text stays on its line. -/
def IsUnbroken (cs : List Char) : Prop := '\n' ∉ cs

/-- A digit, or a dot and a digit. -/
def BeginsNumber : List Char → Prop
  | [] => False
  | c :: cs => c.isDigit = true ∨ c = '.' ∧ cs.head?.any Char.isDigit = true

def BeginsHex (cs : List Char) : Prop := ['0', 'x'] <+: cs ∨ ['0', 'X'] <+: cs

/-- A number: letters, digits, underscores and dots, and unless it is hexadecimal a sign
    directly after an exponent mark. -/
def IsNumeral (cs : List Char) : Prop :=
  BeginsNumber cs ∧ ∀ before c after, cs = before ++ c :: after →
    isNumberChar c = true
      ∨ ¬ BeginsHex cs ∧ isSign c = true ∧ before.getLast?.any isExponentMark = true

/-- All tokens since the last line break, or since the start of the text, are blanks and
    comments. -/
def AtLineStart (before : List Token) : Prop :=
  ∃ earlier line, before = earlier ++ line
    ∧ (earlier = [] ∨ ∃ t, earlier.getLast? = some t ∧ t.kind = .newline)
    ∧ ∀ t ∈ line, t.kind = .whitespace ∨ t.kind = .comment

def BeginsDirective (before : List Token) (text : List Char) : Prop :=
  text.head? = some '#' ∧ AtLineStart before

def BeginsLineComment (text : List Char) : Prop := ['/', '/'] <+: text

def BeginsBlockComment (text : List Char) : Prop := ['/', '*'] <+: text

/-- A closing mark stands at position `i` of the text, behind the opening mark. -/
def ClosesAt (text : List Char) (i : Nat) : Prop := 2 ≤ i ∧ ['*', '/'] <+: text.drop i

/-- `part` is the text through its first closing mark, or all of it if there is none. -/
def EndsWithMark (part text : List Char) : Prop :=
  (∃ i, ClosesAt text i ∧ (∀ j < i, ¬ ClosesAt text j) ∧ part = text.take (i + 2))
    ∨ (∀ i, ¬ ClosesAt text i) ∧ part = text

/-- What a token of this kind reads that stands at the front of `text`, behind the tokens
    `before`. -/
def Kind.Lexeme (before : List Token) (part text : List Char) : Kind → Prop
  | .newline => part = ['\n']
  | .whitespace => IsLongest IsBlankRun part text
  | .identifier => IsLongest IsWordRun part text
  | .number => IsLongest IsNumeral part text
  | .directive => BeginsDirective before text ∧ IsLongest IsUnbroken part text
  | .comment =>
    BeginsLineComment text ∧ IsLongest IsUnbroken part text
      ∨ BeginsBlockComment text ∧ EndsWithMark part text
  | .punctuation =>
    (∃ c, part = [c]) ∧ text.head? ≠ some '\n' ∧ text.head?.any isBlank = false
      ∧ text.head?.any isWordStart = false ∧ ¬ BeginsNumber text
      ∧ ¬ BeginsDirective before text ∧ ¬ BeginsLineComment text ∧ ¬ BeginsBlockComment text

/-- The tokens cover the text, and each of them reads what the grammar says. -/
structure Segmentation (text : String) (ts : List Token) : Prop where
  spells : Token.spell ts = text
  lexeme : ∀ before t after, ts = before ++ t :: after →
    t.kind.Lexeme before t.text.toList (Token.spell (t :: after)).toList

/-! ## §2. Longest beginnings. -/

section Longest

variable {part rest : List Char}

theorem head?_any_eq_false_iff {cs : List Char} {p : Char → Bool} :
    cs.head?.any p = false ↔ ∀ c, cs.head? = some c → p c = false := by
  cases cs.head? <;> simp

/-- The longest beginning is the one that the next character does not continue. -/
theorem isLongest_append_iff {p : List Char → Prop} {goesOn : Char → Bool}
    (hstep : p part → ∀ c more, p (part ++ c :: more) → goesOn c = true)
    (hone : p part → ∀ c, goesOn c = true → p (part ++ [c])) :
    IsLongest p part (part ++ rest) ↔ p part ∧ rest.head?.any goesOn = false := by
  rw [head?_any_eq_false_iff]
  constructor
  · intro h
    refine ⟨h.holds, fun c hc => ?_⟩
    rw [← Bool.not_eq_true]
    intro hgoesOn
    -- one character more would still have the property
    obtain ⟨cs, rfl⟩ := List.head?_eq_some_iff.1 hc
    have hlength := h.longest (part ++ [c]) (hone h.holds c hgoesOn) ⟨cs, by simp⟩
    rw [List.length_append, List.length_singleton] at hlength
    omega
  · intro h
    obtain ⟨hp, hstops⟩ := h
    refine ⟨hp, List.prefix_append part rest, fun other hother hbegins => ?_⟩
    apply Nat.le_of_not_lt
    intro hlonger
    -- a longer beginning would go on with the next character
    obtain ⟨more, rfl⟩ := List.prefix_of_prefix_length_le (List.prefix_append part rest) hbegins
      (by omega)
    cases more with
    | nil => simp at hlonger
    | cons c more =>
      obtain ⟨later, rfl⟩ := (List.prefix_append_right_inj part).1 hbegins
      have hgoesOn := hstep hp c more hother
      rw [hstops c rfl] at hgoesOn
      exact absurd hgoesOn (by decide)

theorem isLongest_blanks_iff :
    IsLongest IsBlankRun part (part ++ rest)
      ↔ IsBlankRun part ∧ rest.head?.any isBlank = false := by
  apply isLongest_append_iff
  · intro _ c more h
    exact h.2 c (by simp)
  · intro h c hc
    refine ⟨by simp, fun d hd => ?_⟩
    rcases List.mem_append.1 hd with hd | hd
    · exact h.2 d hd
    · exact List.mem_singleton.1 hd ▸ hc

theorem isLongest_word_iff :
    IsLongest IsWordRun part (part ++ rest)
      ↔ IsWordRun part ∧ rest.head?.any isWordChar = false := by
  apply isLongest_append_iff
  · intro _ c more h
    exact h.2 c (by simp)
  · intro h c hc
    obtain ⟨hstart, hall⟩ := h
    obtain ⟨d, hd, -⟩ := (Option.any_eq_true _ _).1 hstart
    obtain ⟨ds, rfl⟩ := List.head?_eq_some_iff.1 hd
    refine ⟨hstart, fun e he => ?_⟩
    rcases List.mem_append.1 he with he | he
    · exact hall e he
    · exact List.mem_singleton.1 he ▸ hc

theorem isLongest_unbroken_iff :
    IsLongest IsUnbroken part (part ++ rest)
      ↔ IsUnbroken part ∧ rest.head?.any (· != '\n') = false := by
  apply isLongest_append_iff
  · intro _ c more h
    have hc : c ≠ '\n' := fun heq => h (by simp [heq])
    simpa using hc
  · intro h c hc
    have hne : c ≠ '\n' := by simpa using hc
    unfold IsUnbroken at *
    simp [h, hne.symm]

/-! Numbers are the longest runs of the lexer. -/

theorem beginsHex_cons {c : Char} {cs : List Char} :
    BeginsHex (c :: cs) ↔ isHex c cs = true := by
  unfold BeginsHex isHex
  rw [Bool.and_eq_true, Bool.or_eq_true, beq_iff_eq, beq_iff_eq, beq_iff_eq]
  cases cs with
  | nil => simp
  | cons d cs =>
    rw [List.cons_prefix_cons, List.cons_prefix_cons, List.cons_prefix_cons,
      List.cons_prefix_cons, List.head?_cons, Option.some_inj, Option.some_inj]
    simp only [List.nil_prefix, and_true, ← and_or_left, eq_comm]

theorem isNumberRun_iff {hex : Bool} {prev : Char} {cs : List Char} :
    isNumberRun hex prev cs = true ↔ ∀ before c after, cs = before ++ c :: after →
      numberGoesOn hex (before.getLast?.getD prev) c = true := by
  induction cs generalizing prev with
  | nil => simp [isNumberRun]
  | cons d cs ih =>
    rw [isNumberRun, Bool.and_eq_true, ih]
    constructor
    · intro h before c after heq
      obtain ⟨hfirst, hlater⟩ := h
      cases before with
      | nil =>
        obtain ⟨rfl, rfl⟩ := List.cons.inj heq
        exact hfirst
      | cons e before =>
        obtain ⟨rfl, rfl⟩ := List.cons.inj heq
        rw [List.getLast?_cons]
        exact hlater before c after rfl
    · intro h
      refine ⟨h [] d cs rfl, fun before c after heq => ?_⟩
      have hlater := h (d :: before) c after (by rw [heq]; rfl)
      rwa [List.getLast?_cons] at hlater

theorem numberGoesOn_iff {hex : Bool} {prev c : Char} :
    numberGoesOn hex prev c = true
      ↔ isNumberChar c = true ∨ hex ≠ true ∧ isSign c = true ∧ isExponentMark prev = true := by
  simp [numberGoesOn, and_assoc]

/-- The first character of a number is a digit or a dot. -/
theorem isNumberChar_of_beginsNumber {c : Char} {cs : List Char} (h : BeginsNumber (c :: cs)) :
    isNumberChar c = true := by
  rcases h with hdigit | ⟨rfl, -⟩
  · exact isNumberChar_of_isWordChar (isWordChar_of_isDigit hdigit)
  · decide

theorem isNumeral_cons {c : Char} {cs : List Char} :
    IsNumeral (c :: cs) ↔ BeginsNumber (c :: cs) ∧ isNumberRun (isHex c cs) c cs = true := by
  rw [IsNumeral, isNumberRun_iff, beginsHex_cons]
  refine and_congr_right fun hbegins => ?_
  constructor
  · intro h before d after heq
    have hd := h (c :: before) d after (by rw [heq]; rfl)
    rw [List.getLast?_cons, Option.any_some] at hd
    exact numberGoesOn_iff.2 hd
  · intro h before d after heq
    cases before with
    | nil =>
      obtain ⟨rfl, -⟩ := List.cons.inj heq
      exact .inl (isNumberChar_of_beginsNumber hbegins)
    | cons e before =>
      obtain ⟨rfl, rfl⟩ := List.cons.inj heq
      rw [List.getLast?_cons, Option.any_some]
      exact numberGoesOn_iff.1 (h before d after rfl)

theorem isNumeral_iff {cs : List Char} (lineStart : Bool) :
    IsNumeral cs ↔ Kind.number.Shape lineStart cs := by
  constructor
  · intro h
    cases cs with
    | nil => exact absurd h.1 id
    | cons c cs => exact ⟨c, cs, rfl, isNumeral_cons.1 h⟩
  · intro h
    obtain ⟨c, cs, rfl, hnumber⟩ := h
    exact isNumeral_cons.2 hnumber

/-- A number that begins with one character goes on in the same way, whatever that makes
    of it. -/
theorem numberGoesOn_isHex_nil {d c : Char} {more : List Char} :
    numberGoesOn (isHex d (c :: more)) d c = numberGoesOn (isHex d []) d c := by
  cases hchar : isNumberChar c with
  | true => simp [numberGoesOn, hchar]
  | false =>
    -- the mark of a hexadecimal number would be a number character
    have hnext : (c :: more).head?.any isNumberChar = false := hchar
    rw [show isHex d (c :: more) = isHex d [] from @isHex_append d [] (c :: more) hnext]

theorem isLongest_numeral_iff :
    IsLongest IsNumeral part (part ++ rest)
      ↔ IsNumeral part ∧ rest.head?.any (Kind.number.absorbs part) = false := by
  apply isLongest_append_iff
  · intro hpart c more h
    cases part with
    | nil => exact absurd hpart.1 id
    | cons d ds =>
      have hrun := (isNumeral_cons.1 h).2
      rw [List.append_eq, isNumberRun_append, isNumberRun, Bool.and_eq_true,
        Bool.and_eq_true] at hrun
      rw [Kind.absorbs_number]
      cases ds with
      | nil => exact numberGoesOn_isHex_nil ▸ hrun.2.1
      | cons e es => exact hrun.2.1
  · intro hpart c hc
    cases part with
    | nil => exact absurd hpart.1 id
    | cons d ds =>
      rw [Kind.absorbs_number] at hc
      obtain ⟨hbegins, hrun⟩ := isNumeral_cons.1 hpart
      refine isNumeral_cons.2 ⟨?_, ?_⟩
      · -- the digit after a dot is still there
        refine hbegins.imp_right fun hdot => ⟨hdot.1, ?_⟩
        cases ds with
        | nil => exact absurd hdot.2 (by decide)
        | cons e es => exact hdot.2
      · rw [List.append_eq, isNumberRun_append, isNumberRun, isNumberRun, Bool.and_true,
          Bool.and_eq_true]
        cases ds with
        | nil => exact ⟨rfl, numberGoesOn_isHex_nil.trans hc⟩
        | cons e es => exact ⟨hrun, hc⟩

/-! ## §3. Comments. -/

theorem closesAt_add_two {c d : Char} {cs : List Char} {i : Nat} :
    ClosesAt (c :: d :: cs) (i + 2) ↔ ['*', '/'] <+: cs.drop i := by
  simp [ClosesAt]

theorem exists_of_closesAt {text : List Char} {i : Nat} (h : ClosesAt text i) :
    ∃ j, i = j + 2 :=
  ⟨i - 2, (Nat.sub_add_cancel h.1).symm⟩

/-- The search finds the first closing mark. -/
theorem splitClose?_eq_some {cs body rest : List Char}
    (h : splitClose? cs = some (body, rest)) :
    ∃ i, ['*', '/'] <+: cs.drop i ∧ (∀ j < i, ¬ ['*', '/'] <+: cs.drop j)
      ∧ body = cs.take (i + 2) := by
  fun_induction splitClose? cs generalizing body rest with
  | case1 => simp at h
  | case2 tail =>
    cases h
    exact ⟨0, by simp, by simp, by simp⟩
  | case3 c cs hnot ih =>
    obtain ⟨⟨body', rest'⟩, hfound, heq⟩ := Option.map_eq_some_iff.1 h
    cases heq
    obtain ⟨i, hmark, hfirst, rfl⟩ := ih hfound
    refine ⟨i + 1, hmark, fun j hj => ?_, rfl⟩
    cases j with
    | zero =>
      intro hhead
      obtain ⟨rfl, more, rfl⟩ := List.cons_prefix_cons.1 hhead
      exact hnot more rfl rfl
    | succ j => exact hfirst j (by omega)

theorem splitClose?_eq_none_iff_drop {cs : List Char} :
    splitClose? cs = none ↔ ∀ i, ¬ ['*', '/'] <+: cs.drop i := by
  rw [splitClose?_eq_none_iff, List.infix_iff_prefix_suffix]
  constructor
  · intro h i hmark
    exact h ⟨cs.drop i, hmark, List.drop_suffix i cs⟩
  · intro h hinfix
    obtain ⟨later, hmark, hsuffix⟩ := hinfix
    rw [List.suffix_iff_eq_drop.1 hsuffix] at hmark
    exact h _ hmark

/-- Up to the first closing mark there is no other. -/
theorem splitClose?_take {cs : List Char} {i : Nat} (hmark : ['*', '/'] <+: cs.drop i)
    (hfirst : ∀ j < i, ¬ ['*', '/'] <+: cs.drop j) :
    splitClose? (cs.take (i + 2)) = some (cs.take (i + 2), []) := by
  cases hfound : splitClose? cs with
  | none => exact absurd hmark (splitClose?_eq_none_iff_drop.1 hfound i)
  | some found =>
    obtain ⟨k, hmark', hfirst', hbody⟩ := splitClose?_eq_some hfound
    have hk : k = i := by
      rcases Nat.lt_trichotomy k i with hlt | heq | hgt
      · exact absurd hmark' (hfirst k hlt)
      · exact heq
      · exact absurd hmark (hfirst' i hgt)
    rw [← hk, ← hbody]
    exact splitClose?_body hfound

/-- A block comment of the grammar is one of the lexer: it ends with the closing mark that
    the search finds, or with the text. -/
theorem endsWithMark_iff {body : List Char} :
    EndsWithMark ('/' :: '*' :: body) ('/' :: '*' :: body ++ rest)
      ↔ (∀ found ∈ splitClose? body, found.2 = []) ∧ (splitClose? body = none → rest = []) := by
  constructor
  · intro h
    rcases h with ⟨i, hcloses, hfirst, hpart⟩ | ⟨hnone, hpart⟩
    · obtain ⟨k, rfl⟩ := exists_of_closesAt hcloses
      have hbody : body = (body ++ rest).take (k + 2) := by simpa using hpart
      have hfound : splitClose? body = some (body, []) := by
        have htake : splitClose? ((body ++ rest).take (k + 2))
            = some ((body ++ rest).take (k + 2), []) :=
          splitClose?_take (closesAt_add_two.1 hcloses) fun j hj hmark =>
            hfirst (j + 2) (by omega) (closesAt_add_two.2 hmark)
        rwa [← hbody] at htake
      simp [hfound]
    · have hrest : rest = [] := by simpa using hpart
      subst hrest
      have hfound : splitClose? body = none := splitClose?_eq_none_iff_drop.2 fun i hmark =>
        hnone (i + 2) (closesAt_add_two.2 (by simpa using hmark))
      simp [hfound]
  · intro h
    obtain ⟨hclosed, hopen⟩ := h
    cases hfound : splitClose? body with
    | none =>
      obtain rfl := hopen hfound
      rw [List.append_nil]
      refine .inr ⟨fun i hcloses => ?_, rfl⟩
      obtain ⟨k, rfl⟩ := exists_of_closesAt hcloses
      exact splitClose?_eq_none_iff_drop.1 hfound k (closesAt_add_two.1 hcloses)
    | some found =>
      obtain ⟨inside, after⟩ := found
      obtain rfl : after = [] := hclosed _ hfound
      obtain rfl : inside = body := by simpa using splitClose?_append hfound
      obtain ⟨k, hmark, hfirst, hbody⟩ := splitClose?_eq_some (splitClose?_append_right rest hfound)
      refine .inl ⟨k + 2, closesAt_add_two.2 hmark, fun j hj hcloses => ?_, ?_⟩
      · obtain ⟨m, rfl⟩ := exists_of_closesAt hcloses
        exact hfirst m (by omega) (closesAt_add_two.1 hcloses)
      · simpa using hbody

end Longest

/-! ## §4. The start of a line. -/

theorem Kind.keepsLineStart_iff {kind : Kind} {lineStart : Bool} :
    kind.keepsLineStart lineStart = true
      ↔ kind = .newline ∨ lineStart = true ∧ (kind = .whitespace ∨ kind = .comment) := by
  cases kind <;> simp [Kind.keepsLineStart]

theorem atLineStart_nil : AtLineStart [] := ⟨[], [], rfl, .inl rfl, by simp⟩

theorem atLineStart_concat {before : List Token} {t : Token} :
    AtLineStart (before ++ [t])
      ↔ t.kind = .newline ∨ AtLineStart before ∧ (t.kind = .whitespace ∨ t.kind = .comment) := by
  constructor
  · intro h
    obtain ⟨earlier, line, heq, hearlier, hline⟩ := h
    -- either `t` is the last token of the line, or the line begins behind it
    rcases List.eq_nil_or_concat line with rfl | ⟨line, u, rfl⟩
    · rw [List.append_nil] at heq
      subst heq
      rcases hearlier with hnil | ⟨u, hu, hkind⟩
      · simp at hnil
      · obtain rfl : t = u := by simpa using hu
        exact .inl hkind
    · rw [List.concat_eq_append] at heq hline
      rw [← List.append_assoc] at heq
      obtain ⟨rfl, hlast⟩ := List.append_inj' heq rfl
      obtain rfl : t = u := by simpa using hlast
      exact .inr ⟨⟨earlier, line, rfl, hearlier, fun v hv => hline v (by simp [hv])⟩,
        hline t (by simp)⟩
  · intro h
    rcases h with hnewline | ⟨⟨earlier, line, rfl, hearlier, hline⟩, hkind⟩
    · exact ⟨before ++ [t], [], by simp, .inr ⟨t, by simp, hnewline⟩, by simp⟩
    · refine ⟨earlier, line ++ [t], by simp, hearlier, fun v hv => ?_⟩
      rcases List.mem_append.1 hv with hv | hv
      · exact hline v hv
      · exact List.mem_singleton.1 hv ▸ hkind

theorem lineStartAfter_concat {lineStart : Bool} {before : List Token} {t : Token} :
    lineStartAfter lineStart (before ++ [t])
      = t.kind.keepsLineStart (lineStartAfter lineStart before) := by
  simp [lineStartAfter]

/-- **What the lexer remembers** of the tokens before: whether they put it at the start of
    a line. -/
theorem atLineStart_iff (before : List Token) :
    lineStartAfter true before = true ↔ AtLineStart before := by
  -- from the end of the tokens, as the last line break is what counts
  induction before using List.reverseRecOn with
  | nil => simp [lineStartAfter, atLineStart_nil]
  | append_singleton before t ih =>
    rw [lineStartAfter_concat, Kind.keepsLineStart_iff, atLineStart_concat, ih]

/-! ## §5. One token. -/

section Lexeme

variable {before : List Token} {lineStart : Bool} {part rest : List Char}

/-- Any beginning with the property is a beginning of the longest one. -/
theorem IsLongest.prefix_of {p : List Char → Prop} {other text : List Char}
    (h : IsLongest p part text) (hother : p other) (hbegins : other <+: text) :
    other <+: part :=
  List.prefix_of_prefix_length_le hbegins h.begins (h.longest other hother hbegins)

theorem isWordRun_iff : IsWordRun part ↔ Kind.identifier.Shape lineStart part := by
  constructor
  · intro h
    obtain ⟨hstart, hall⟩ := h
    cases part with
    | nil => simp at hstart
    | cons c cs => exact ⟨c, cs, rfl, hstart, fun d hd => hall d (List.mem_cons_of_mem c hd)⟩
  · intro h
    obtain ⟨c, cs, rfl, hstart, hall⟩ := h
    exact ⟨hstart, List.forall_mem_cons.2 ⟨isWordChar_of_isWordStart hstart, hall⟩⟩

theorem directive_lexeme_iff (hline : lineStart = true ↔ AtLineStart before) :
    Kind.directive.Lexeme before part (part ++ rest)
      ↔ Kind.directive.Shape lineStart part ∧ rest.head?.any (· != '\n') = false := by
  constructor
  · intro h
    obtain ⟨⟨hhead, hbefore⟩, hlongest⟩ := h
    obtain ⟨cs, htext⟩ := List.head?_eq_some_iff.1 hhead
    have hmark : IsUnbroken ['#'] := by
      unfold IsUnbroken
      decide
    obtain ⟨more, rfl⟩ := hlongest.prefix_of hmark (by simp [htext])
    obtain ⟨hunbroken, hnext⟩ := isLongest_unbroken_iff.1 hlongest
    exact ⟨⟨hline.2 hbefore, rfl, hunbroken⟩, hnext⟩
  · intro h
    obtain ⟨⟨hstart, hhead, hunbroken⟩, hnext⟩ := h
    refine ⟨⟨?_, hline.1 hstart⟩, isLongest_unbroken_iff.2 ⟨hunbroken, hnext⟩⟩
    rw [List.head?_append, hhead]
    rfl

theorem lineComment_lexeme_iff :
    BeginsLineComment (part ++ rest) ∧ IsLongest IsUnbroken part (part ++ rest)
      ↔ (∃ body, part = '/' :: '/' :: body ∧ '\n' ∉ body)
        ∧ rest.head?.any (commentAbsorbs part) = false := by
  constructor
  · intro h
    obtain ⟨hbegins, hlongest⟩ := h
    have hmark : IsUnbroken ['/', '/'] := by
      unfold IsUnbroken
      decide
    obtain ⟨body, rfl⟩ := hlongest.prefix_of hmark hbegins
    obtain ⟨hunbroken, hnext⟩ := isLongest_unbroken_iff.1 hlongest
    exact ⟨⟨body, rfl, fun hmem => hunbroken (List.mem_append_right _ hmem)⟩, hnext⟩
  · intro h
    obtain ⟨⟨body, rfl, hbody⟩, hnext⟩ := h
    refine ⟨⟨body ++ rest, rfl⟩, isLongest_unbroken_iff.2 ⟨?_, hnext⟩⟩
    unfold IsUnbroken
    simp [hbody]

theorem EndsWithMark.opens {text : List Char} (h : EndsWithMark part text)
    (hbegins : BeginsBlockComment text) : ∃ body, part = '/' :: '*' :: body := by
  obtain ⟨more, rfl⟩ := hbegins
  rcases h with ⟨i, hcloses, -, rfl⟩ | ⟨-, rfl⟩
  · exact ⟨more.take i, rfl⟩
  · exact ⟨more, rfl⟩

theorem blockComment_lexeme_iff :
    BeginsBlockComment (part ++ rest) ∧ EndsWithMark part (part ++ rest)
      ↔ (∃ body, part = '/' :: '*' :: body ∧ ∀ found ∈ splitClose? body, found.2 = [])
        ∧ rest.head?.any (commentAbsorbs part) = false := by
  -- nothing stands behind a comment that is not closed
  have hrest : ∀ body, (splitClose? body = none → rest = [])
      ↔ rest.head?.any (commentAbsorbs ('/' :: '*' :: body)) = false := by
    intro body
    cases rest <;> simp [commentAbsorbs, Option.isSome_iff_ne_none]
  constructor
  · intro h
    obtain ⟨hbegins, hends⟩ := h
    obtain ⟨body, rfl⟩ := hends.opens hbegins
    obtain ⟨hclosed, hopen⟩ := endsWithMark_iff.1 hends
    exact ⟨⟨body, rfl, hclosed⟩, (hrest body).1 hopen⟩
  · intro h
    obtain ⟨⟨body, rfl, hclosed⟩, hnext⟩ := h
    exact ⟨⟨body ++ rest, rfl⟩, endsWithMark_iff.2 ⟨hclosed, (hrest body).2 hnext⟩⟩

theorem punctuation_lexeme_iff (hline : lineStart = true ↔ AtLineStart before) :
    Kind.punctuation.Lexeme before part (part ++ rest)
      ↔ Kind.punctuation.Shape lineStart part
        ∧ rest.head?.any (Kind.punctuation.absorbs part) = false := by
  have hdirective : ∀ c, (¬ BeginsDirective before ([c] ++ rest))
      ↔ (c = '#' → lineStart = false) := by
    intro c
    simp [BeginsDirective, ← hline]
  have hnumber : ∀ c, (¬ BeginsNumber ([c] ++ rest))
      ↔ c.isDigit = false ∧ (c = '.' → rest.head?.any Char.isDigit = false) := by
    intro c
    simp [BeginsNumber]
  have hcomment : ∀ c, (¬ BeginsLineComment ([c] ++ rest) ∧ ¬ BeginsBlockComment ([c] ++ rest))
      ↔ (c = '/' → rest.head? ≠ some '/' ∧ rest.head? ≠ some '*') := by
    intro c
    cases rest <;> simp [BeginsLineComment, BeginsBlockComment]
    grind
  have habsorbs : ∀ c, rest.head?.any (Kind.punctuation.absorbs [c]) = false
      ↔ (c = '/' → rest.head? ≠ some '/' ∧ rest.head? ≠ some '*')
        ∧ (c = '.' → rest.head?.any Char.isDigit = false) := by
    intro c
    cases rest <;> simp [Kind.absorbs]
  constructor
  · intro h
    obtain ⟨⟨c, rfl⟩, hnewline, hblank, hstart, hnum, hdir, hcom⟩ := h
    obtain ⟨hdigit, hdot⟩ := (hnumber c).1 hnum
    exact ⟨⟨c, rfl, fun heq => hnewline (congrArg some heq), hblank, hstart, hdigit,
      (hdirective c).1 hdir⟩, (habsorbs c).2 ⟨(hcomment c).1 hcom, hdot⟩⟩
  · intro h
    obtain ⟨⟨c, rfl, hnewline, hblank, hstart, hdigit, hhash⟩, hnext⟩ := h
    obtain ⟨hslash, hdot⟩ := (habsorbs c).1 hnext
    exact ⟨⟨c, rfl⟩, fun heq => hnewline (Option.some.inj heq), hblank, hstart,
      (hnumber c).2 ⟨hdigit, hdot⟩, (hdirective c).2 hhash, (hcomment c).2 hslash⟩

/-- **The grammar of one token.**  The lexer's look-ahead finds what the grammar says: the
    part is a lexeme of its kind, and the next character does not continue it. -/
theorem Kind.lexeme_iff {kind : Kind} (hline : lineStart = true ↔ AtLineStart before) :
    kind.Lexeme before part (part ++ rest)
      ↔ kind.Shape lineStart part ∧ rest.head?.any (kind.absorbs part) = false := by
  cases kind with
  | newline =>
    have hnext : rest.head?.any (Kind.newline.absorbs part) = false := by cases rest <;> rfl
    rw [hnext]
    exact (and_iff_left rfl).symm
  | whitespace => exact isLongest_blanks_iff
  | identifier => exact isLongest_word_iff.trans (and_congr_left fun _ => isWordRun_iff)
  | number =>
    exact isLongest_numeral_iff.trans (and_congr_left fun _ => isNumeral_iff lineStart)
  | directive => exact directive_lexeme_iff hline
  | comment =>
    exact (or_congr lineComment_lexeme_iff blockComment_lexeme_iff).trans or_and_right.symm
  | punctuation => exact punctuation_lexeme_iff hline

end Lexeme

/-! ## §6. Whole texts. -/

/-- A cut is a list of lexemes: the look-ahead of the lexer and the grammar agree at every
    token. -/
theorem cut_iff_lexemes (before ts : List Token) :
    Cut (lineStartAfter true before) none ts ↔ ∀ mid t after, ts = mid ++ t :: after →
      t.kind.Lexeme (before ++ mid) t.text.toList (Token.spell (t :: after)).toList := by
  induction ts generalizing before with
  | nil => simp [Cut]
  | cons t ts ih =>
    have htail := ih (before ++ [t])
    rw [lineStartAfter_concat] at htail
    -- the grammar of the first token looks at what the rest spells, the cut at its first token
    have hfirst : Cut (t.kind.keepsLineStart (lineStartAfter true before)) none ts →
        (t.kind.Lexeme before t.text.toList (Token.spell (t :: ts)).toList
          ↔ t.WellShaped (lineStartAfter true before)
            ∧ (Token.headChar? none ts).any t.absorbs = false) := by
      intro hrest
      rw [Token.spell_cons, String.toList_append, ← hrest.head?_spell]
      exact Kind.lexeme_iff (atLineStart_iff before)
    constructor
    · intro h mid u after heq
      obtain ⟨hshape, hnext, hrest⟩ := h
      cases mid with
      | nil =>
        obtain ⟨rfl, rfl⟩ := List.cons.inj heq
        rw [List.append_nil]
        exact (hfirst hrest).2 ⟨hshape, hnext⟩
      | cons v mid =>
        obtain ⟨rfl, rfl⟩ := List.cons.inj heq
        have hlexeme := htail.1 hrest mid u after rfl
        rwa [List.append_assoc] at hlexeme
    · intro h
      have hrest : Cut (t.kind.keepsLineStart (lineStartAfter true before)) none ts := by
        refine htail.2 fun mid u after heq => ?_
        rw [List.append_assoc]
        exact h (t :: mid) u after (by rw [heq]; rfl)
      have hlexeme := h [] t ts rfl
      rw [List.append_nil] at hlexeme
      obtain ⟨hshape, hnext⟩ := (hfirst hrest).1 hlexeme
      exact ⟨hshape, hnext, hrest⟩

theorem tokenize_eq_iff_segmentation {text : String} {ts : List Token} :
    tokenize text = ts ↔ Segmentation text ts := by
  rw [tokenize_eq_iff, show Cut true none ts ↔ _ from cut_iff_lexemes [] ts]
  constructor
  · intro h
    exact ⟨h.2, h.1⟩
  · intro h
    exact ⟨h.lexeme, h.spells⟩

/-! ## §7. Runs reach back as far as they can. -/

section Back

variable {kind : Kind} {lineStart : Bool} {part : List Char} {c d : Char}

theorem splitClose?_getLast? {cs body rest : List Char}
    (h : splitClose? cs = some (body, rest)) : body.getLast? = some '/' := by
  fun_induction splitClose? cs generalizing body rest with
  | case1 => simp at h
  | case2 tail =>
    cases h
    rfl
  | case3 c cs hnot ih =>
    obtain ⟨found, hfound, heq⟩ := Option.map_eq_some_iff.1 h
    cases heq
    rw [List.getLast?_cons, ih hfound]
    rfl

/-- A comment that does not end with a slash is not closed yet. -/
theorem Kind.Shape.commentAbsorbs (h : Kind.comment.Shape lineStart part)
    (hlast : part.getLast? = some c) (hc : c ≠ '/') (hd : d ≠ '\n') :
    commentAbsorbs part d = true := by
  rcases h with ⟨body, rfl, -⟩ | ⟨body, rfl, hclosed⟩
  · exact bne_iff_ne.2 hd
  · rw [GlslMinifier.commentAbsorbs, Option.isNone_iff_eq_none, Option.eq_none_iff_forall_not_mem]
    intro found hfound
    obtain ⟨inside, after⟩ := found
    obtain rfl : after = [] := hclosed _ hfound
    obtain rfl : inside = body := by simpa using splitClose?_append hfound
    rw [List.getLast?_cons_cons, List.getLast?_cons, splitClose?_getLast? hfound] at hlast
    exact hc (Option.some.inj hlast).symm

theorem ne_of_isBlank (h : isBlank c = true) : c ≠ '\n' ∧ c ≠ '/' := by
  constructor <;> intro heq <;> subst heq <;> exact absurd h (by decide)

/-- A token that ends with a blank goes on with another one. -/
theorem Kind.Shape.absorbs_isBlank (h : kind.Shape lineStart part)
    (hlast : part.getLast? = some c) (hc : isBlank c = true) (hd : isBlank d = true) :
    kind.absorbs part d = true := by
  have hmem : c ∈ part := List.mem_of_getLast? hlast
  cases kind with
  | newline =>
    obtain rfl : c = '\n' := List.mem_singleton.1 (h ▸ hmem)
    exact absurd rfl (ne_of_isBlank hc).1
  | whitespace => exact hd
  | identifier =>
    have hword := (isWordRun_iff.2 h).2 c hmem
    exact absurd hc (Bool.eq_false_iff.1 (isBlank_eq_false_of_isWordChar hword))
  | number =>
    obtain ⟨before, rfl⟩ := List.getLast?_eq_some_iff.1 hlast
    rcases ((isNumeral_iff lineStart).2 h).2 before c [] rfl with hnumber | ⟨-, hsign, -⟩
    · exact absurd hc (Bool.eq_false_iff.1 (isBlank_eq_false_of_isNumberChar hnumber))
    · rw [isSign, Bool.or_eq_true, beq_iff_eq, beq_iff_eq] at hsign
      rcases hsign with rfl | rfl <;> exact absurd hc (by decide)
  | directive => exact bne_iff_ne.2 (ne_of_isBlank hd).1
  | comment => exact h.commentAbsorbs hlast (ne_of_isBlank hc).2 (ne_of_isBlank hd).1
  | punctuation =>
    obtain ⟨e, rfl, -, hblank, -⟩ := h
    obtain rfl : c = e := List.mem_singleton.1 hmem
    exact absurd hc (Bool.eq_false_iff.1 hblank)

/-- A token that ends with a letter, a digit or an underscore goes on with another one. -/
theorem Kind.Shape.absorbs_isWordChar (h : kind.Shape lineStart part)
    (hlast : part.getLast? = some c) (hc : isWordChar c = true) (hd : isWordChar d = true) :
    kind.absorbs part d = true := by
  have hmem : c ∈ part := List.mem_of_getLast? hlast
  cases kind with
  | newline =>
    obtain rfl : c = '\n' := List.mem_singleton.1 (h ▸ hmem)
    exact absurd hc (by decide)
  | whitespace =>
    exact absurd (h.2 c hmem) (Bool.eq_false_iff.1 (isBlank_eq_false_of_isWordChar hc))
  | identifier => exact hd
  | number =>
    show part.getLast?.any _ = true
    rw [hlast, Option.any_some, numberGoesOn_iff]
    exact .inl (isNumberChar_of_isWordChar hd)
  | directive => exact bne_iff_ne.2 (ne_of_isWordChar hd '\n' (by simp))
  | comment =>
    exact h.commentAbsorbs hlast (ne_of_isWordChar hc '/' (by simp))
      (ne_of_isWordChar hd '\n' (by simp))
  | punctuation =>
    obtain ⟨e, rfl, -, -, hstart, hdigit, -⟩ := h
    obtain rfl : c = e := List.mem_singleton.1 hmem
    simp_all [isWordStart, isWordChar, Char.isAlphanum]

/-- A run begins where the text before cannot be continued by it: the token before would
    have taken it in. -/
theorem Cut.run_reaches_back {before after : List Token} {t : Token} {p : Char → Bool}
    (hcut : Cut true none (before ++ t :: after))
    (habsorbs : ∀ {kind : Kind} {lineStart : Bool} {part : List Char} {c d : Char},
      kind.Shape lineStart part → part.getLast? = some c → p c = true → p d = true →
        kind.absorbs part d = true)
    (hfirst : t.first?.any p = true) :
    (Token.spell before).toList.getLast?.any p = false := by
  have hbefore : Cut true t.first? before := (cut_append.1 hcut).1
  obtain ⟨d, hd, hpd⟩ := (Option.any_eq_true _ _).1 hfirst
  rw [hbefore.getLast?_spell, ← Bool.not_eq_true, Option.any_eq_true]
  intro h
  obtain ⟨c, hc, hpc⟩ := h
  obtain ⟨u, hu, hlast⟩ := Option.bind_eq_some_iff.1 hc
  obtain ⟨start, hshape⟩ := hbefore.exists_wellShaped (List.mem_of_getLast? hu)
  obtain ⟨init, rfl⟩ := List.getLast?_eq_some_iff.1 hu
  have hstops := hbefore.last_stops
  rw [hd, Option.any_some, Token.absorbs, habsorbs hshape hlast hpc hpd] at hstops
  exact absurd hstops (by decide)

end Back

/-- **The lexer finds the one segmentation of a text.**  Its tokens cover the text and read
    what the grammar says, and no other tokens do.  Runs of blanks and identifiers are the
    longest on both sides: the text before them does not end with one of their characters. -/
theorem tokenize_unique_segmentation (text : String) :
    (∀ ts, tokenize text = ts ↔ Segmentation text ts)
      ∧ ∀ before t after, tokenize text = before ++ t :: after →
        (t.kind = .whitespace → (Token.spell before).toList.getLast?.any isBlank = false)
          ∧ (t.kind = .identifier →
            (Token.spell before).toList.getLast?.any isWordChar = false) := by
  refine ⟨fun ts => tokenize_eq_iff_segmentation, fun before t after heq => ?_⟩
  have hcut : Cut true none (before ++ t :: after) := heq ▸ cut_tokenize text
  obtain ⟨hshape, -, -⟩ := (cut_append.1 hcut).2
  obtain ⟨kind, part⟩ := t
  constructor
  · intro hkind
    obtain rfl : kind = .whitespace := hkind
    obtain ⟨c, cs, hc⟩ := hshape.exists_cons
    refine hcut.run_reaches_back Kind.Shape.absorbs_isBlank ?_
    have hall : ∀ d ∈ part.toList, isBlank d = true := hshape.2
    rw [Token.first?, hc]
    exact hall c (by rw [hc]; exact List.mem_cons_self)
  · intro hkind
    obtain rfl : kind = .identifier := hkind
    obtain ⟨c, cs, hc, hstart, -⟩ := hshape
    refine hcut.run_reaches_back Kind.Shape.absorbs_isWordChar ?_
    rw [Token.first?, hc]
    exact isWordChar_of_isWordStart hstart

/-- A `#` behind a comment begins a directive and a `#` behind a number does not; a sign
    behind an exponent mark is part of the number unless that is hexadecimal. -/
theorem tokenize_unique_segmentation_contexts :
    Segmentation "/**/ #a\n.5e+1#0xe+b"
        [⟨.comment, "/**/"⟩, ⟨.whitespace, " "⟩, ⟨.directive, "#a"⟩, ⟨.newline, "\n"⟩,
          ⟨.number, ".5e+1"⟩, ⟨.punctuation, "#"⟩, ⟨.number, "0xe"⟩, ⟨.punctuation, "+"⟩,
          ⟨.identifier, "b"⟩]
      ∧ (Token.spell [⟨.comment, "/**/"⟩]).toList.getLast?.any isBlank = false := by
  have htokens : tokenize "/**/ #a\n.5e+1#0xe+b"
      = [⟨.comment, "/**/"⟩, ⟨.whitespace, " "⟩, ⟨.directive, "#a"⟩, ⟨.newline, "\n"⟩,
        ⟨.number, ".5e+1"⟩, ⟨.punctuation, "#"⟩, ⟨.number, "0xe"⟩, ⟨.punctuation, "+"⟩,
        ⟨.identifier, "b"⟩] := by
    decide +kernel
  obtain ⟨hunique, hback⟩ := tokenize_unique_segmentation "/**/ #a\n.5e+1#0xe+b"
  exact ⟨(hunique _).1 htokens, (hback [⟨.comment, "/**/"⟩] _ _ htokens).1 rfl⟩

end GlslMinifier
