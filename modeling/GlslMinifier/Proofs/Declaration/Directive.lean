/-
  GlslMinifier.Proofs.Declaration.Directive — names on preprocessor lines.

  A preprocessor line comes out as it went in, so whatever name it spells has to keep its
  spelling everywhere.  The names are found by lexing what follows the `#`, and that is
  lexed as if it began a line.  This makes a difference for one character only: where
  another `#` comes next, it is taken for the mark of a directive, and no name behind it
  is found.

  Main results:
    * `scan_lineStart_eq` — where the start of a line is like any other place
    * `directiveWords_eq` — the names that are found on a preprocessor line
    * `directiveWord_keeps_spelling` — such a name is protected, and neither renamed nor taken
-/
import GlslMinifier.Proofs.Declaration
import GlslMinifier.Proofs.Declaration.Bracket
import GlslMinifier.Proofs.Renaming.Capture

namespace GlslMinifier

/-! ## §1. The start of a line. -/

/-- At the start of a line, only `#` is no lexeme of its own. -/
theorem Kind.Shape.at_lineStart {kind : Kind} {text : List Char} (h : kind.Shape false text)
    (hmark : ¬ (kind = .punctuation ∧ text = ['#'])) : kind.Shape true text := by
  cases kind with
  | directive => exact absurd h.1 (by decide)
  | punctuation =>
    obtain ⟨c, rfl, hbreak, hblank, hstart, hdigit, -⟩ := h
    exact ⟨c, rfl, hbreak, hblank, hstart, hdigit, fun heq => absurd ⟨rfl, by rw [heq]⟩ hmark⟩
  | newline | whitespace | comment | identifier | number => exact h

theorem Token.isPunctuation_iff {t : Token} {text : String} :
    t.isPunctuation text = true ↔ t.kind = .punctuation ∧ t.text = text := by
  simp [isPunctuation]

/-- Whether the first token that carries meaning is the mark `#`. -/
def beginsWithMark (ts : List Token) : Bool :=
  (Token.significant ts).head?.any (·.isPunctuation "#")

theorem beginsWithMark_cons (t : Token) (ts : List Token) :
    beginsWithMark (t :: ts) = if t.isTrivia then beginsWithMark ts else t.isPunctuation "#" := by
  unfold beginsWithMark Token.significant
  cases htrivia : t.isTrivia with
  | true => rw [List.filter_cons_of_neg (by simp [htrivia]), if_pos rfl]
  | false =>
    rw [List.filter_cons_of_pos (by simp [htrivia]), List.head?_cons, Option.any_some]
    rfl

/-- What does not begin with `#` may stand at the start of a line. -/
theorem Cut.at_lineStart {next? : Option Char} {ts : List Token} (h : Cut false next? ts)
    (hmark : beginsWithMark ts = false) : Cut true next? ts := by
  induction ts with
  | nil => trivial
  | cons t ts ih =>
    obtain ⟨hshape, hnext, hrest⟩ := h
    rw [beginsWithMark_cons] at hmark
    unfold Token.isTrivia at hmark
    have hplain : ¬ (t.kind = .punctuation ∧ t.text.toList = ['#']) := by
      rintro ⟨hkind, htext⟩
      have hsharp : t.isPunctuation "#" = true :=
        Token.isPunctuation_iff.2 ⟨hkind, String.toList_injective htext⟩
      rw [hkind, hsharp] at hmark
      exact Bool.noConfusion hmark
    refine ⟨hshape.at_lineStart hplain, hnext, ?_⟩
    cases hkind : t.kind with
    | whitespace | comment =>
      -- blanks and comments leave the start of the line where it is
      rw [hkind] at hrest hmark
      exact ih hrest hmark
    | newline | identifier | number | punctuation | directive =>
      -- a line break begins a line anyway, and behind any other token the line goes on
      rw [hkind] at hrest
      exact hrest

/-- **The start of a line is like any other place** for what does not begin with `#`. -/
theorem scan_lineStart_eq {cs : List Char} (hmark : beginsWithMark (scan false cs) = false) :
    scan true cs = scan false cs :=
  scan_eq_iff.2 ⟨(cut_scan false cs).at_lineStart hmark, toList_spell_scan false cs⟩

/-! ## §2. Names of a preprocessor line. -/

/-- The tokens of a text that does not begin a line, where a `#` opens no directive. -/
def tokensMidLine (text : String) : List Token := scan false text.toList

/-- Whether another `#` comes next after the one that opens the directive. -/
def Token.repeatsMark (t : Token) : Bool := beginsWithMark (tokensMidLine t.text).tail

theorem scan_mark (cs : List Char) : scan false ('#' :: cs) = .mark "#" :: scan false cs := by
  rw [scan]
  rfl

/-- The `#` of a directive is a token of its own in the middle of a line. -/
theorem tokensMidLine_directive {t : Token} {start : Bool} (hshape : t.WellShaped start)
    (hkind : t.kind = .directive) :
    tokensMidLine t.text = .mark "#" :: scan false t.text.toList.tail := by
  unfold Token.WellShaped at hshape
  rw [hkind] at hshape
  obtain ⟨cs, hcs⟩ := List.head?_eq_some_iff.1 hshape.2.1
  unfold tokensMidLine
  rw [hcs, scan_mark, List.tail_cons]

/-- The names that are found on a preprocessor line are all that it spells, unless its mark
    is repeated. -/
theorem directiveWords_eq {t : Token} {start : Bool} (hshape : t.WellShaped start)
    (hkind : t.kind = .directive) (hmark : t.repeatsMark = false) :
    ProtectedNames.directiveWords t
      = ((tokensMidLine t.text).filter (·.isIdentifier)).map (·.text) := by
  unfold Token.repeatsMark at hmark
  rw [tokensMidLine_directive hshape hkind, List.tail_cons] at hmark
  unfold ProtectedNames.directiveWords tokenize
  rw [String.toList_ofList, scan_lineStart_eq hmark, tokensMidLine_directive hshape hkind,
    List.filter_cons_of_neg (by decide)]

theorem contains_of_mem_directiveWords {ts : List Token} {t : Token} (ht : t ∈ ts)
    (hkind : t.kind = .directive) {name : String}
    (hname : name ∈ ProtectedNames.directiveWords t) :
    (ProtectedNames.ofTokens ts).contains name = true := by
  have hmeaning : t ∈ Token.significant ts := by
    refine List.mem_filter.2 ⟨ht, ?_⟩
    unfold Token.isTrivia
    rw [hkind]
    rfl
  have hmem : name ∈ ((Token.significant ts).filter (·.kind == .directive)).flatMap
      ProtectedNames.directiveWords :=
    List.mem_flatMap.2 ⟨t, List.mem_filter.2 ⟨hmeaning, by simp [hkind]⟩, hname⟩
  refine ProtectedNames.contains_of_mem ?_ name hmem
  simp [ProtectedNames.sets, ProtectedNames.ofTokens]

/-! ## §3. Names in a renamed text. -/

/-- A protected name has no alias, and is none. -/
theorem not_alias_of_contains {filter : Filter} {text name : String}
    (h : (Survey.ofText text).protectedNames.contains name = true) :
    aliasOf? filter text name = none ∧ ∀ other, aliasOf? filter text other ≠ some name := by
  refine ⟨no_alias_of_contains h, fun other halias => ?_⟩
  have hfree := contains_eq_false (isAliasWord_of_alias halias) (not_isReserved_of_alias halias)
  rw [h] at hfree
  exact absurd hfree (by decide)

/-- **A name on a preprocessor line keeps its spelling everywhere**: whatever identifier the
    line spells, it is protected, has no alias and is no alias, if the mark of the line is
    not repeated. -/
theorem directiveWord_keeps_spelling (filter : Filter) (text : String) {t w : Token}
    (ht : t ∈ tokenize text) (hkind : t.kind = .directive) (hmark : t.repeatsMark = false)
    (hw : w ∈ tokensMidLine t.text) (hword : w.isIdentifier = true) :
    (Survey.ofText text).protectedNames.contains w.text = true
      ∧ aliasOf? filter text w.text = none
      ∧ ∀ name, aliasOf? filter text name ≠ some w.text := by
  obtain ⟨start, hshape⟩ := (cut_tokenize text).exists_wellShaped ht
  have hfound : w.text ∈ ProtectedNames.directiveWords t := by
    rw [directiveWords_eq hshape hkind hmark]
    exact List.mem_map_of_mem (List.mem_filter.2 ⟨hw, hword⟩)
  have hprotected := contains_of_mem_directiveWords ht hkind hfound
  exact ⟨hprotected, not_alias_of_contains hprotected⟩

/-- A name that stands between a comment and a number, and behind a `#` further on. -/
theorem directiveWord_keeps_spelling_pasted :
    let text := "#/* 1 */define X 2e-c##val\nfloat val, c;"
    let line : Token := ⟨.directive, "#/* 1 */define X 2e-c##val"⟩
    line ∈ tokenize text ∧ line.repeatsMark = false
      ∧ .word "val" ∈ tokensMidLine line.text
      ∧ (Survey.ofText text).protectedNames.contains "val" = true
      ∧ aliasOf? (Filter.anyOf []) text "val" = none
      ∧ ∀ name, aliasOf? (Filter.anyOf []) text name ≠ some "val" := by
  intro text line
  have hline : line ∈ tokenize text := by decide +kernel
  have hmark : line.repeatsMark = false := by decide +kernel
  have hmem : Token.word "val" ∈ tokensMidLine line.text := by decide +kernel
  have hkept := directiveWord_keeps_spelling (Filter.anyOf []) text hline rfl hmark hmem rfl
  exact ⟨hline, hmark, hmem, hkept⟩

/-- A name behind a repeated mark is renamed, and the line still spells it as it was. -/
theorem directiveWord_behind_repeated_mark_renamed :
    let text := "##foo\nfloat foo;"
    let line : Token := ⟨.directive, "##foo"⟩
    line ∈ tokenize text ∧ .word "foo" ∈ tokensMidLine line.text
      ∧ (Survey.ofText text).protectedNames.contains "foo" = false
      ∧ (renameIdentifiers (Filter.anyOf []) text).content = "##foo\nfloat a;" := by
  decide +kernel

end GlslMinifier
