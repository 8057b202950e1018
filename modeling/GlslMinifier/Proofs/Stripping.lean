/-
  GlslMinifier.Proofs.Stripping — what stripping comments does to a text.

  Stripping finds comments by searching for their marks, first those of block comments in
  the whole text and then those of line comments in what is left; the lexer finds them one
  after the other, as they begin.  Both see the same comments, as long as no mark of a
  block comment stands where the lexer does not look for one: in a line comment, or on a
  preprocessor line.

  Main results:
    * `stripComments_settles` — no comment is left that a second pass would find
    * `strip_token`, `strip_lineComment`, … — what becomes of one token
    * `significant_stripComments` — the lexer finds the same tokens in between
-/
import GlslMinifier.Proofs.Compaction.Settled
import GlslMinifier.Proofs.OpenComment

namespace GlslMinifier

/-! ## §1. Stripping twice. -/

/-- Where no block comment is closed, none is blanked. -/
theorem NeverCloses.blankBlockComments_eq {cs : List Char} (h : NeverCloses cs) :
    blankBlockComments cs = cs := by
  fun_induction blankBlockComments cs with
  | case1 cs body rest hfound =>
    rw [splitClose?_eq_none_iff.2 (h cs (List.suffix_refl _))] at hfound
    cases hfound
  | case2 => rfl
  | case3 c cs _ ih => rw [ih (h.of_suffix (List.suffix_cons c cs))]
  | case4 => rfl

/-- **Stripping is complete, so doing it twice is doing it once**: what it leaves holds no
    mark of a line comment, and no mark of a block comment with a closing mark after it. -/
theorem stripComments_settles (text : String) :
    stripComments (stripComments text) = stripComments text
      ∧ ¬ ['/', '/'] <:+: (stripComments text).toList
      ∧ NeverCloses (stripComments text).toList := by
  have hline := not_lineMark_infix_stripComments text
  have hblock := neverCloses_stripComments text
  refine ⟨?_, hline, hblock⟩
  rw [stripComments, hblock.blankBlockComments_eq, cutLineComments_eq_self hline,
    String.ofList_toList]

/-! ## §2. Stripping one token. -/

/-- Stripping, on characters. -/
def strip (cs : List Char) : List Char := cutLineComments (blankBlockComments cs)

theorem stripComments_eq (text : String) :
    stripComments text = String.ofList (strip text.toList) := rfl

/-- In `cs`, with `ds` after it, no `a` has a `b` directly behind it. -/
structure PairFree (a b : Char) (cs ds : List Char) : Prop where
  inside : ¬ [a, b] <:+: cs
  meeting : cs.getLast? = some a → ds.head? ≠ some b

namespace PairFree

variable {a b c : Char} {cs ds : List Char}

theorem tail (h : PairFree a b (c :: cs) ds) : PairFree a b cs ds where
  inside hpair := h.inside (List.infix_cons hpair)
  meeting hlast := by
    refine h.meeting ?_
    rw [List.getLast?_cons, hlast]
    rfl

theorem not_at_head (h : PairFree a b (c :: cs) ds) (tail : List Char) (hc : c = a)
    (htail : cs ++ ds = b :: tail) : False := by
  subst hc
  cases cs with
  | nil => exact h.meeting rfl (by rw [show ds = b :: tail from htail]; rfl)
  | cons d cs =>
    obtain ⟨rfl, -⟩ := List.cons.inj htail
    exact h.inside ⟨[], cs, rfl⟩

/-- A text without marks of block comments is passed over. -/
theorem blankBlockComments_append (h : PairFree '/' '*' cs ds) :
    blankBlockComments (cs ++ ds) = cs ++ blankBlockComments ds := by
  induction cs with
  | nil => rfl
  | cons c cs ih =>
    rw [List.cons_append, blankBlockComments]
    · rw [ih h.tail, List.cons_append]
    · exact h.not_at_head

/-- A text without marks of line comments is passed over. -/
theorem cutLineComments_append (h : PairFree '/' '/' cs ds) :
    cutLineComments (cs ++ ds) = cs ++ cutLineComments ds := by
  induction cs with
  | nil => rfl
  | cons c cs ih =>
    rw [List.cons_append, cutLineComments]
    · rw [ih h.tail, List.cons_append]
    · exact h.not_at_head

end PairFree

/-- A line comment is cut up to the line break. -/
theorem cutLineComments_line {body ds : List Char} (hbody : '\n' ∉ body)
    (hstop : ds.head?.any (· != '\n') = false) :
    cutLineComments ('/' :: '/' :: (body ++ ds)) = cutLineComments ds := by
  have hrun : splitRun (· != '\n') (body ++ ds) = (body, ds) :=
    splitRun_eq (fun c hc => bne_iff_ne.2 fun heq => hbody (heq ▸ hc)) hstop
  rw [cutLineComments]
  exact congrArg (fun found => cutLineComments found.2) hrun

section

variable {lineStart : Bool} {t : Token} {rest : List Char}

/-- Outside comments and directives, a slash is a token of its own, which no mark goes
    through. -/
theorem Token.WellShaped.pairFree (h : t.WellShaped lineStart)
    (hdirective : t.kind ≠ .directive) (hcomment : t.kind ≠ .comment)
    (hnext : rest.head?.any t.absorbs = false) {d : Char} (hd : d = '/' ∨ d = '*') :
    PairFree '/' d t.text.toList rest := by
  have hslash := h.text_of_slash hdirective hcomment
  constructor
  · intro hmark
    have hlength := hmark.length_le
    rw [(hslash (hmark.subset List.mem_cons_self)).2] at hlength
    exact absurd hlength (by simp)
  · intro hlast hhead
    obtain ⟨hkind, htext⟩ := hslash (List.mem_of_getLast? hlast)
    rw [hhead, Token.absorbs, hkind, htext] at hnext
    rcases hd with rfl | rfl
    · exact absurd hnext (by decide)
    · exact absurd hnext (by decide)

/-- Stripping brings nothing but blanks and line breaks to the front. -/
theorem head?_strip {c : Char} (h : (strip rest).head? = some c) :
    rest.head? = some c ∨ c = ' ' ∨ c = '\n' := by
  by_cases hbreak : c = '\n'
  · exact .inr (.inr hbreak)
  by_cases hblank : c = ' '
  · exact .inr (.inl hblank)
  exact .inl (head?_blankBlockComments (head?_cutLineComments h hbreak) hblank)

/-- Stripping leaves a token that is neither comment nor directive. -/
theorem strip_token (h : t.WellShaped lineStart) (hdirective : t.kind ≠ .directive)
    (hcomment : t.kind ≠ .comment) (hnext : rest.head?.any t.absorbs = false) :
    strip (t.text.toList ++ rest) = t.text.toList ++ strip rest := by
  have hblock := h.pairFree hdirective hcomment hnext (.inr rfl)
  have hline := h.pairFree hdirective hcomment hnext (.inl rfl)
  unfold strip
  rw [hblock.blankBlockComments_append]
  -- a slash behind the token was there before block comments were blanked
  exact PairFree.cutLineComments_append ⟨hline.inside, fun hlast hhead =>
    hline.meeting hlast (head?_blankBlockComments hhead (by decide))⟩

/-- Stripping drops a line comment. -/
theorem strip_lineComment {body : List Char} (hbody : '\n' ∉ body)
    (hmark : ¬ ['/', '*'] <:+: '/' :: '/' :: body)
    (hstop : rest.head?.any (· != '\n') = false) :
    strip ('/' :: '/' :: body ++ rest) = strip rest := by
  unfold strip
  cases rest with
  | nil =>
    have hfree : PairFree '/' '*' ('/' :: '/' :: body) [] := ⟨hmark, fun _ => nofun⟩
    rw [hfree.blankBlockComments_append]
    exact cutLineComments_line hbody (by simp [blankBlockComments])
  | cons c rest =>
    obtain rfl : c = '\n' := by simpa using hstop
    have hfree : PairFree '/' '*' ('/' :: '/' :: body) ('\n' :: rest) :=
      ⟨hmark, fun _ => by simp⟩
    have hbreak : PairFree '/' '*' ['\n'] rest :=
      ⟨by simp [List.infix_cons_iff], fun hlast => absurd hlast (by decide)⟩
    have hblank : blankBlockComments ('\n' :: rest) = '\n' :: blankBlockComments rest :=
      hbreak.blankBlockComments_append
    rw [hfree.blankBlockComments_append, hblank]
    exact cutLineComments_line hbody rfl

/-- Stripping makes a space of a closed block comment. -/
theorem strip_closedComment {body found : List Char} (h : splitClose? body = some (found, [])) :
    strip ('/' :: '*' :: body ++ rest) = ' ' :: strip rest := by
  have hfound := splitClose?_append_right rest h
  have hblank : blankBlockComments ('/' :: '*' :: (body ++ rest))
      = ' ' :: blankBlockComments rest := by
    rw [blankBlockComments]
    split
    next _ more heq =>
      rw [hfound] at heq
      cases heq
      rfl
    next heq =>
      rw [hfound] at heq
      cases heq
  have hspace : PairFree '/' '/' [' '] (blankBlockComments rest) :=
    ⟨by simp [List.infix_cons_iff], fun hlast => absurd hlast (by decide)⟩
  unfold strip
  rw [List.cons_append, List.cons_append, hblank]
  exact hspace.cutLineComments_append

/-- Stripping cuts lines in a block comment without an end, and does not end it. -/
theorem strip_openComment {body : List Char} (h : splitClose? body = none) :
    ∃ left, strip ('/' :: '*' :: body) = '/' :: '*' :: left ∧ splitClose? left = none := by
  have hblank : blankBlockComments ('/' :: '*' :: body) = '/' :: '*' :: body := by
    rw [blankBlockComments]
    split
    next heq =>
      rw [h] at heq
      cases heq
    next => rfl
  refine ⟨cutLineComments body, ?_, ?_⟩
  · have hmark : PairFree '/' '/' ['/', '*'] body :=
      ⟨by decide, fun hlast => absurd hlast (by decide)⟩
    unfold strip
    rw [hblank]
    exact hmark.cutLineComments_append
  · rw [splitClose?_eq_none_iff] at h ⊢
    exact fun hclose => h (infix_cutLineComments (by decide) hclose)

end

/-! ## §3. Lexing a stripped text. -/

/-- Blanks before a text add no token that carries meaning. -/
theorem significant_scan_blanks (lineStart : Bool) {blanks : List Char}
    (hblanks : ∀ c ∈ blanks, isBlank c = true) (rest : List Char) :
    Token.significant (scan lineStart (blanks ++ rest))
      = Token.significant (scan lineStart rest) := by
  -- both texts are blanks before what comes after the blanks of `rest`
  have hstops := splitRun_stops (p := isBlank) rest
  have hall : ∀ c ∈ (splitRun isBlank rest).1, isBlank c = true := splitRun_all rest
  have hwhole := splitRun_append isBlank rest
  generalize (splitRun isBlank rest).1 = more at hall hwhole
  generalize (splitRun isBlank rest).2 = after at hstops hwhole
  have hdrop : ∀ run : List Char, (∀ c ∈ run, isBlank c = true) →
      Token.significant (scan lineStart (run ++ after))
        = Token.significant (scan lineStart after) := by
    intro run hrun
    by_cases hne : run = []
    · rw [hne, List.nil_append]
    · have hshape : Token.WellShaped lineStart ⟨.whitespace, String.ofList run⟩ := by
        show Kind.Shape lineStart .whitespace (String.ofList run).toList
        rw [String.toList_ofList]
        exact ⟨hne, hrun⟩
      have hscan := scan_append hshape hstops
      rw [String.toList_ofList] at hscan
      rw [hscan]
      rfl
  subst hwhole
  rw [← List.append_assoc, hdrop _ (List.forall_mem_append.2 ⟨hblanks, hall⟩), hdrop _ hall]

section

variable {lineStart : Bool} {t : Token} {rest : List Char}

/-- A comment leaves no token that carries meaning. -/
theorem significant_strip_comment (h : t.WellShaped lineStart) (hkind : t.kind = .comment)
    (hline : ['/', '/'] <+: t.text.toList → ¬ ['/', '*'] <:+: t.text.toList)
    (hnext : rest.head?.any t.absorbs = false) :
    Token.significant (scan lineStart (strip (t.text.toList ++ rest)))
      = Token.significant (scan lineStart (strip rest)) := by
  unfold Token.WellShaped at h
  unfold Token.absorbs at hnext
  rw [hkind] at h hnext
  rcases h with ⟨body, htext, hbody⟩ | ⟨body, htext, hclosed⟩
  · -- a line comment goes, and its line break stays
    rw [htext] at hline hnext ⊢
    rw [strip_lineComment hbody (hline ⟨body, rfl⟩) hnext]
  · rw [htext] at hnext ⊢
    cases hfound : splitClose? body with
    | some found =>
      obtain ⟨inside, after⟩ := found
      obtain rfl : after = [] := hclosed _ hfound
      rw [strip_closedComment hfound]
      have hspace : ∀ c ∈ [' '], isBlank c = true := by simp [isBlank]
      exact significant_scan_blanks lineStart hspace _
    | none =>
      -- a comment without an end reaches to the end of the text, and does so afterwards
      obtain rfl : rest = [] := by
        cases rest with
        | nil => rfl
        | cons c rest => simp [Kind.absorbs, commentAbsorbs, hfound] at hnext
      obtain ⟨left, hstrip, hleft⟩ := strip_openComment hfound
      have hshape : Token.WellShaped lineStart ⟨.comment, String.ofList ('/' :: '*' :: left)⟩ :=
        .inr ⟨left, String.toList_ofList, by simp [hleft]⟩
      have hscan := scan_append hshape (show ([] : List Char).head?.any _ = false from rfl)
      rw [String.toList_ofList, List.append_nil] at hscan
      rw [List.append_nil, hstrip, hscan]
      simp [strip, blankBlockComments, cutLineComments, scan, Token.significant, Token.isTrivia,
        Kind.isTrivia]

/-- Blanks may run together with those that comments left behind. -/
theorem significant_strip_blanks (h : t.WellShaped lineStart) (hkind : t.kind = .whitespace)
    (hnext : rest.head?.any t.absorbs = false) :
    Token.significant (scan lineStart (strip (t.text.toList ++ rest)))
      = Token.significant (scan lineStart (strip rest)) := by
  rw [strip_token h (by simp [hkind]) (by simp [hkind]) hnext]
  unfold Token.WellShaped at h
  rw [hkind] at h
  exact significant_scan_blanks lineStart h.2 _

/-- Any other token stays, and nothing that comes after it now continues it. -/
theorem scan_strip_token (h : t.WellShaped lineStart) (hdirective : t.kind ≠ .directive)
    (hcomment : t.kind ≠ .comment) (hblank : t.kind ≠ .whitespace)
    (hnext : rest.head?.any t.absorbs = false) :
    scan lineStart (strip (t.text.toList ++ rest))
      = t :: scan (t.kind.keepsLineStart lineStart) (strip rest) := by
  rw [strip_token h hdirective hcomment hnext]
  refine scan_append h ?_
  cases hhead : (strip rest).head? with
  | none => rfl
  | some c =>
    rw [Option.any_some]
    rcases head?_strip hhead with hsame | rfl | rfl
    · simpa [hsame] using hnext
    · exact Token.absorbs_space_of_ne hblank hdirective hcomment
    · exact Kind.absorbs_newline hcomment t.text.toList

end

/-- No line comment spells the mark of a block comment. -/
def PlainLineComments (ts : List Token) : Prop :=
  ∀ t ∈ ts, t.kind = .comment → ['/', '/'] <+: t.text.toList → ¬ ['/', '*'] <:+: t.text.toList

/-- Stripping keeps the tokens that carry meaning, from any place of a text on. -/
theorem Cut.significant_scan_strip {lineStart : Bool} {ts : List Token}
    (h : Cut lineStart none ts) (hdirective : ∀ t ∈ ts, t.kind ≠ .directive)
    (hline : PlainLineComments ts) :
    Token.significant (scan lineStart (strip (Token.spell ts).toList)) = Token.significant ts := by
  induction ts generalizing lineStart with
  | nil => simp [strip, blankBlockComments, cutLineComments, scan]
  | cons t ts ih =>
    obtain ⟨hshape, hnext, hrest⟩ := h
    have hlater := ih hrest (fun u hu => hdirective u (List.mem_cons_of_mem t hu))
      fun u hu => hline u (List.mem_cons_of_mem t hu)
    rw [← hrest.head?_spell] at hnext
    rw [Token.spell_cons, String.toList_append]
    have htrivia : t.isTrivia = true → Token.significant (t :: ts) = Token.significant ts :=
      fun ht => List.filter_cons_of_neg (by simp [ht])
    by_cases hcomment : t.kind = .comment
    · rw [significant_strip_comment hshape hcomment (hline t List.mem_cons_self hcomment) hnext,
        htrivia (by simp [Token.isTrivia, hcomment, Kind.isTrivia])]
      rwa [hcomment] at hlater
    by_cases hblank : t.kind = .whitespace
    · rw [significant_strip_blanks hshape hblank hnext,
        htrivia (by simp [Token.isTrivia, hblank, Kind.isTrivia])]
      rwa [hblank] at hlater
    rw [scan_strip_token hshape (hdirective t List.mem_cons_self) hcomment hblank hnext]
    unfold Token.significant at hlater ⊢
    rw [List.filter_cons, List.filter_cons, hlater]

/-- **Stripping and the lexer agree about comments**: in a text without directives, whose
    line comments spell no mark of a block comment, stripping leaves all tokens that carry
    meaning, and the lexer finds no others afterwards. -/
theorem significant_stripComments (text : String)
    (hdirective : ∀ t ∈ tokenize text, t.kind ≠ .directive)
    (hline : PlainLineComments (tokenize text)) :
    Token.significant (tokenize (stripComments text)) = Token.significant (tokenize text) := by
  have h := (cut_tokenize text).significant_scan_strip hdirective hline
  rw [spell_tokenize] at h
  unfold tokenize at h ⊢
  rw [stripComments_eq, String.toList_ofList]
  exact h

/-- A line mark inside a block comment, a comment of several lines next to slashes, and a
    comment without an end that holds a line mark. -/
theorem significant_stripComments_nested :
    let text := "a /* // */ + /*/\n*/// b\n/**// c /* // d\n*"
    (∀ t ∈ tokenize text, t.kind ≠ .directive) ∧ PlainLineComments (tokenize text)
      ∧ Token.significant (tokenize (stripComments text)) = Token.significant (tokenize text) := by
  have hdirective : ∀ t ∈ tokenize "a /* // */ + /*/\n*/// b\n/**// c /* // d\n*",
      t.kind ≠ .directive := by decide +kernel
  have hline : PlainLineComments (tokenize "a /* // */ + /*/\n*/// b\n/**// c /* // d\n*") := by
    unfold PlainLineComments
    decide +kernel
  exact ⟨hdirective, hline, significant_stripComments _ hdirective hline⟩

end GlslMinifier
