/-
  GlslMinifier.Proofs.Compaction.Settled — narrowing what was narrowed.

  Dropping a gap changes how a text is lexed in one case only: a decimal number that ends
  in an exponent mark goes on with the sign that now stands next to it, and then with what
  follows the sign.  Such a number takes in whole tokens, so a gap that was left stands
  between the same two characters as before, and there is no new reason to drop it.

  Main results:
    * `Cut.exists_takesIn` — a decimal number before a cut takes in whole tokens of it
    * `Cut.exists_relexed` — the lexer finds settled tokens in a narrowed line
    * `CodeLine.settled_narrowed` — a narrowed code line is a settled code line
    * `Cut.spells_no_mark` — tokens of code spell no comment mark
-/
import GlslMinifier.Proofs.Compaction.Segment

namespace GlslMinifier

/-! ## §1. Settled tokens. -/

/-- Every gap of the tokens is one space that narrowing leaves, `left?` being the token
    before them. -/
def Settled (left? : Option Token) : List Token → Prop
  | [] => True
  | t :: ts =>
    (t.isGap = true → t = Token.space ∧ gapBetween left? ts.head? = " ") ∧ Settled (some t) ts

/-- Narrowing does nothing to settled tokens. -/
theorem Settled.narrowTokens_eq {left? : Option Token} {ts : List Token}
    (h : Settled left? ts) : narrowTokens left? ts = ts := by
  induction ts generalizing left? with
  | nil => rfl
  | cons t ts ih =>
    obtain ⟨hgap, hrest⟩ := h
    by_cases ht : t.isGap = true
    · obtain ⟨rfl, hkept⟩ := hgap ht
      rw [narrowTokens_gap ht, gapTokens, hkept, if_neg (by decide), ih hrest]
      rfl
    · rw [narrowTokens_keep (by simpa using ht), ih hrest]

/-- What stands before a list matters only to a gap at its front. -/
theorem Settled.of_head {left? left?' : Option Token} {ts : List Token}
    (h : Settled left? ts) (hhead : ts.head?.any (·.isGap) = false) : Settled left?' ts := by
  cases ts with
  | nil => trivial
  | cons t ts =>
    have ht : t.isGap = false := hhead
    exact ⟨fun hgap => absurd hgap (by simp [ht]), h.2⟩

/-- A gap is left where nothing tight stands beside it, or where tokens would fuse. -/
theorem gapBetween_eq_space_iff {left right : Token} :
    gapBetween (some left) (some right) = " "
      ↔ ((left.isTight || right.isTight) = true → left.fuses right = true) := by
  unfold gapBetween
  cases htight : left.isTight || right.isTight <;> cases hfuses : left.fuses right <;>
    simp [htight, hfuses]

/-- A token that is not tight, and ends like the one before the list, may take its place. -/
theorem Settled.of_last {left left' : Token} {ts : List Token} (h : Settled (some left) ts)
    (hlast : left'.last? = left.last?) (htight : left'.isTight = false) :
    Settled (some left') ts := by
  cases ts with
  | nil => trivial
  | cons t ts =>
    refine ⟨fun hgap => ?_, h.2⟩
    obtain ⟨hspace, hkept⟩ := h.1 hgap
    refine ⟨hspace, ?_⟩
    cases hright : ts.head? with
    | none => simp [hright, gapBetween] at hkept
    | some right =>
      rw [hright, gapBetween_eq_space_iff] at hkept
      have hfuses : left'.fuses right = left.fuses right := by
        unfold Token.fuses
        rw [hlast]
      rw [gapBetween_eq_space_iff, hfuses, htight]
      intro hright
      exact hkept (by simpa using .inr hright)

/-! ## §2. Decimal numbers that go on. -/

/-- The text is a decimal number, and more than its first digit. -/
def SpellsDecimal (text : List Char) : Prop :=
  ∃ c d ds, text = c :: d :: ds ∧ (c.isDigit = true ∨ c = '.' ∧ d.isDigit = true)
    ∧ isHex c (d :: ds) = false ∧ isNumberRun false c (d :: ds) = true

theorem isNumberRun_of_forall {hex : Bool} {prev : Char} {cs : List Char}
    (h : ∀ c ∈ cs, isNumberChar c = true) : isNumberRun hex prev cs = true := by
  induction cs generalizing prev with
  | nil => rfl
  | cons c cs ih =>
    rw [isNumberRun, numberGoesOn, h c List.mem_cons_self]
    exact ih fun d hd => h d (List.mem_cons_of_mem c hd)

/-- Whatever continues a hexadecimal number continues a decimal one. -/
theorem isNumberRun_false {hex : Bool} {prev : Char} {cs : List Char}
    (h : isNumberRun hex prev cs = true) : isNumberRun false prev cs = true := by
  induction cs generalizing prev with
  | nil => rfl
  | cons c cs ih =>
    simp only [isNumberRun, numberGoesOn, Bool.and_eq_true, Bool.or_eq_true] at h ⊢
    exact ⟨h.1.imp_right fun hsign => ⟨⟨rfl, hsign.1.2⟩, hsign.2⟩, ih h.2⟩

namespace SpellsDecimal

variable {text : List Char} (h : SpellsDecimal text)
include h

theorem shape (lineStart : Bool) : Kind.number.Shape lineStart text := by
  obtain ⟨c, d, ds, rfl, hstart, hhex, hrun⟩ := h
  refine ⟨c, d :: ds, rfl, by simpa using hstart, ?_⟩
  rw [hhex]
  exact hrun

/-- A decimal number goes on after its last character. -/
theorem absorbs_eq : ∃ prev, text.getLast? = some prev
    ∧ Kind.number.absorbs text = numberGoesOn false prev := by
  obtain ⟨c, d, ds, rfl, -, hhex, -⟩ := h
  refine ⟨(d :: ds).getLast?.getD c, List.getLast?_cons, ?_⟩
  rw [Kind.absorbs_number, hhex]

theorem append {prev : Char} (hprev : text.getLast? = some prev) {more : List Char}
    (hmore : isNumberRun false prev more = true) : SpellsDecimal (text ++ more) := by
  obtain ⟨c, d, ds, rfl, hstart, hhex, hrun⟩ := h
  refine ⟨c, d, ds ++ more, rfl, hstart, hhex, ?_⟩
  rw [List.getLast?_cons, Option.some_inj] at hprev
  rw [← List.cons_append, isNumberRun_append, hrun, hprev, hmore]
  rfl

end SpellsDecimal

/-- Blanks, line breaks and the marks of other constructs continue no number. -/
theorem ne_of_numberGoesOn {hex : Bool} {prev c : Char} (h : numberGoesOn hex prev c = true) :
    ∀ d ∈ [' ', '\t', '\r', '\x0b', '\x0c', '\n', '#', '/'], c ≠ d := by
  have hclass : isNumberChar c = true ∨ isSign c = true := by
    simp only [numberGoesOn, Bool.or_eq_true, Bool.and_eq_true] at h
    exact h.imp_right fun hsign => hsign.1.2
  intro d hd heq
  subst heq
  simp only [List.mem_cons, List.not_mem_nil, or_false] at hd
  rcases hd with rfl | rfl | rfl | rfl | rfl | rfl | rfl | rfl <;>
    exact absurd hclass (by decide)

/-- One digit or dot is no exponent mark. -/
theorem isExponentMark_eq_false_of_start {c : Char} (h : c.isDigit = true ∨ c = '.') :
    isExponentMark c = false := by
  rw [← Bool.not_eq_true]
  simp only [isExponentMark, Bool.or_eq_true, beq_iff_eq]
  intro hmark
  rcases hmark with rfl | rfl <;> exact absurd h (by decide)

/-- A number that waits for a sign is decimal. -/
theorem Token.WellShaped.spellsDecimal {t : Token} {lineStart : Bool}
    (h : t.WellShaped lineStart) (hdangles : t.danglesExponent = true) :
    t.kind = .number ∧ SpellsDecimal t.text.toList := by
  simp only [danglesExponent, Bool.and_eq_true, beq_iff_eq, Bool.not_eq_true'] at hdangles
  obtain ⟨⟨hkind, hhex⟩, hlast⟩ := hdangles
  unfold WellShaped at h
  rw [hkind] at h
  obtain ⟨c, cs, htext, hstart, hrun⟩ := h
  rw [last?, htext] at hlast
  rw [htext] at hhex
  have hdecimal : isHex c cs = false := hhex
  refine ⟨hkind, ?_⟩
  cases cs with
  | nil =>
    -- the mark would be the first character
    have hmark : isExponentMark c = true := hlast
    rw [isExponentMark_eq_false_of_start (hstart.imp_right And.left)] at hmark
    exact absurd hmark (by decide)
  | cons d ds =>
    rw [hdecimal] at hrun
    exact ⟨c, d, ds, htext, by simpa using hstart, hdecimal, hrun⟩

/-- A decimal number that goes on with the first character of a token goes on with all
    of it. -/
theorem Token.WellShaped.isNumberRun_of_first {t : Token} {lineStart : Bool}
    (h : t.WellShaped lineStart) {c prev : Char} (hc : t.first? = some c)
    (hgoesOn : numberGoesOn false prev c = true) :
    isNumberRun false prev t.text.toList = true := by
  obtain ⟨e, cs, htext⟩ := h.exists_cons
  obtain rfl : e = c := by simpa [first?, htext] using hc
  unfold WellShaped at h
  rw [htext] at h ⊢
  rw [isNumberRun, hgoesOn, Bool.true_and]
  have hmark := ne_of_numberGoesOn hgoesOn
  -- the first characters of gaps, directives and comments are none of a number
  cases hkind : t.kind with
  | newline =>
    rw [hkind] at h
    exact absurd (List.cons.inj h).1 (hmark '\n' (by decide))
  | whitespace =>
    rw [hkind] at h
    have hblank := h.2 e List.mem_cons_self
    simp only [isBlank, Bool.or_eq_true, beq_iff_eq] at hblank
    rcases hblank with (((rfl | rfl) | rfl) | rfl) | rfl <;>
      exact absurd rfl (hmark _ (by decide))
  | directive =>
    rw [hkind] at h
    exact absurd (by simpa using h.2.1) (hmark '#' (by decide))
  | comment =>
    rw [hkind] at h
    have hslash : e = '/' := by
      rcases h with ⟨body, hbody, -⟩ | ⟨body, hbody, -⟩
      · exact (List.cons.inj hbody).1
      · exact (List.cons.inj hbody).1
    exact absurd hslash (hmark '/' (by decide))
  | identifier =>
    rw [hkind] at h
    obtain ⟨d, ds, heq, -, hall⟩ := h
    obtain ⟨rfl, rfl⟩ := List.cons.inj heq
    exact isNumberRun_of_forall fun d hd => isNumberChar_of_isWordChar (hall d hd)
  | number =>
    rw [hkind] at h
    obtain ⟨d, ds, heq, -, hrun⟩ := h
    obtain ⟨rfl, rfl⟩ := List.cons.inj heq
    exact isNumberRun_false hrun
  | punctuation =>
    rw [hkind] at h
    obtain ⟨d, heq, -⟩ := h
    obtain ⟨rfl, rfl⟩ := List.cons.inj heq
    rfl

/-! ## §3. Numbers that take in tokens. -/

/-- Before the tokens `ts`, the number `text` takes in `more` and leaves the tokens `rest`. -/
structure TakesIn (text : String) (ts : List Token) (more : String) (rest : List Token) :
    Prop where
  spell_eq : more ++ Token.spell rest = Token.spell ts
  suffix : rest <:+ ts
  settled : Settled (some ⟨.number, text ++ more⟩) rest
  cut : ∀ start, Cut start none (⟨.number, text ++ more⟩ :: rest)

variable {text : String} {ts : List Token} {left : Token}

/-- A number that the next token does not continue takes in nothing. -/
theorem takesIn_nothing (h : Cut false none ts) (hsettled : Settled (some left) ts)
    (htext : SpellsDecimal text.toList) (hlast : text.toList.getLast? = left.last?)
    (hnext : (Token.headChar? none ts).any (Kind.number.absorbs text.toList) = false) :
    TakesIn text ts "" ts where
  spell_eq := String.empty_append
  suffix := List.suffix_refl ts
  settled := by
    rw [String.append_empty]
    exact hsettled.of_last hlast rfl
  cut start := by
    rw [String.append_empty]
    exact ⟨htext.shape start, hnext, h⟩

/-- Taking in one token, the number goes on behind it. -/
theorem TakesIn.cons {t : Token} {more : String} {rest : List Token}
    (h : TakesIn (text ++ t.text) ts more rest) :
    TakesIn text (t :: ts) (t.text ++ more) rest where
  spell_eq := by rw [Token.spell_cons, ← h.spell_eq, String.append_assoc]
  suffix := h.suffix.trans (List.suffix_cons t ts)
  settled := by
    rw [← String.append_assoc]
    exact h.settled
  cut start := by
    rw [← String.append_assoc]
    exact h.cut start

/-- **A decimal number before a cut takes in whole tokens of it**, and what it leaves stays
    settled. -/
theorem Cut.exists_takesIn (h : Cut false none ts) (hline : ∀ t ∈ ts, t.kind ≠ .newline)
    (hsettled : Settled (some left) ts) (htext : SpellsDecimal text.toList)
    (hlast : text.toList.getLast? = left.last?) : ∃ more rest, TakesIn text ts more rest := by
  -- along the tokens, the number growing by one of them in each step
  induction ts generalizing left text with
  | nil => exact ⟨"", [], takesIn_nothing h hsettled htext hlast rfl⟩
  | cons t ts ih =>
    obtain ⟨prev, hprev, habsorbs⟩ := htext.absorbs_eq
    obtain ⟨c, cs, hc⟩ := h.1.exists_cons
    by_cases hgoesOn : numberGoesOn false prev c = true
    · have hrun := h.1.isNumberRun_of_first (show t.first? = some c by simp [Token.first?, hc])
        hgoesOn
      have hrest := h.2.2
      rw [Kind.keepsLineStart_false (hline t List.mem_cons_self)] at hrest
      have htext' : SpellsDecimal (text ++ t.text).toList := by
        rw [String.toList_append]
        exact htext.append hprev hrun
      have hlast' : (text ++ t.text).toList.getLast? = t.last? := by
        rw [String.toList_append, List.getLast?_append, Token.last?, hc, List.getLast?_cons]
        rfl
      obtain ⟨more, rest, htakes⟩ := ih hrest
        (fun u hu => hline u (List.mem_cons_of_mem t hu)) hsettled.2 htext' hlast'
      exact ⟨t.text ++ more, rest, htakes.cons⟩
    · refine ⟨"", t :: ts, takesIn_nothing h hsettled htext hlast ?_⟩
      show t.first?.any (Kind.number.absorbs text.toList) = false
      rw [habsorbs, Token.first?, hc]
      simpa using hgoesOn

/-! ## §4. Narrowed lines. -/

/-- The tokens `us` are what the lexer finds in place of `ts` in a narrowed line, `left?`
    being the token before them. -/
structure Relexed (start : Bool) (left? : Option Token) (ts us : List Token) : Prop where
  cut : Cut start none us
  spell_eq : Token.spell us = Token.spell (narrowTokens left? ts)
  settled : Settled left? us
  no_newline : ∀ u ∈ us, u.kind ≠ .newline
  /-- Comments are found again, and no others arise. -/
  comments : ∀ u ∈ us, u.kind = .comment → u ∈ ts
  /-- Unless a gap comes first, they are to a gap before them what `ts` were. -/
  first : ts.head?.any (·.isGap) = false → us.head?.any (·.isGap) = false
    ∧ ∀ left?, gapBetween left? us.head? = gapBetween left? ts.head?

variable {start : Bool} {left? : Option Token} {us : List Token} {t : Token}

/-- Both begin with the same character. -/
theorem Relexed.headChar?_eq (h : Relexed start left? ts us) (hcut : Cut start none ts) :
    Token.headChar? none us = Token.headChar? none (narrowTokens left? ts) := by
  rw [← h.cut.head?_spell, h.spell_eq, head?_spell_narrowTokens hcut]

/-- A gap that is dropped. -/
theorem Relexed.drop (h : Relexed start (some t) ts us) (hgap : t.isGap = true)
    (hhead : ts.head?.any (·.isGap) = false) (hdropped : gapBetween left? ts.head? = "") :
    Relexed start left? (t :: ts) us where
  cut := h.cut
  spell_eq := by rw [narrowTokens_gap hgap, gapTokens, if_pos hdropped, h.spell_eq]; rfl
  settled := h.settled.of_head (h.first hhead).1
  no_newline := h.no_newline
  comments u hu hkind := List.mem_cons_of_mem t (h.comments u hu hkind)
  first ht := absurd hgap (by simpa using ht)

/-- A gap that is left. -/
theorem Relexed.space (h : Relexed start (some t) ts us) (hgap : t.isGap = true)
    (hhead : ts.head?.any (·.isGap) = false) (hkept : gapBetween left? ts.head? = " ")
    (hapart : (Token.headChar? none us).any isBlank = false) :
    Relexed start left? (t :: ts) (Token.space :: us) where
  cut := ⟨Token.space_wellShaped start, hapart, h.cut⟩
  spell_eq := by
    rw [narrowTokens_gap hgap, gapTokens, hkept, if_neg (by decide), List.singleton_append,
      Token.spell_cons, Token.spell_cons, h.spell_eq]
  settled := by
    refine ⟨fun _ => ⟨rfl, ?_⟩, h.settled.of_head (h.first hhead).1⟩
    rw [(h.first hhead).2, hkept]
  no_newline := List.forall_mem_cons.2 ⟨by decide, h.no_newline⟩
  comments := List.forall_mem_cons.2 ⟨Kind.noConfusion, fun u hu hkind =>
    List.mem_cons_of_mem t (h.comments u hu hkind)⟩
  first ht := absurd hgap (by simpa using ht)

/-- Any other token, where the next character does not continue it. -/
theorem Relexed.keep (h : Relexed (t.kind.keepsLineStart start) (some t) ts us)
    (hshape : t.WellShaped start) (hnext : (Token.headChar? none us).any t.absorbs = false)
    (hgap : t.isGap = false) : Relexed start left? (t :: ts) (t :: us) where
  cut := ⟨hshape, hnext, h.cut⟩
  spell_eq := by rw [narrowTokens_keep hgap, Token.spell_cons, Token.spell_cons, h.spell_eq]
  settled := ⟨fun ht => absurd ht (by simp [hgap]), h.settled⟩
  no_newline := by
    refine List.forall_mem_cons.2 ⟨fun hkind => ?_, h.no_newline⟩
    exact absurd (isGap_iff.2 (.inr hkind)) (by simp [hgap])
  comments := List.forall_mem_cons.2 ⟨fun _ => List.mem_cons_self, fun u hu hkind =>
    List.mem_cons_of_mem t (h.comments u hu hkind)⟩
  first _ := ⟨hgap, fun _ => rfl⟩

/-- To a gap before it, a number is what it was before it took anything in. -/
theorem gapBetween_of_number (left? : Option Token) {u : Token} (ht : t.kind = .number)
    (hu : u.kind = .number) (hfirst : u.first? = t.first?) :
    gapBetween left? (some u) = gapBetween left? (some t) := by
  cases left? with
  | none => rfl
  | some left =>
    have hfuses : left.fuses u = left.fuses t := by
      unfold Token.fuses
      rw [hfirst]
    have htight : ∀ v : Token, v.kind = .number → v.isTight = false := fun v hv => by
      simp [Token.isTight, hv]
    simp only [gapBetween, hfuses, htight t ht, htight u hu]

/-- A number that takes in tokens. -/
theorem Relexed.join (h : Relexed false (some t) ts us) {more : String} {rest : List Token}
    (htakes : TakesIn t.text us more rest) (hshape : t.WellShaped start)
    (hkind : t.kind = .number) :
    Relexed start left? (t :: ts) (⟨.number, t.text ++ more⟩ :: rest) where
  cut := htakes.cut start
  spell_eq := by
    have hgap : t.isGap = false := by
      unfold Token.isGap
      rw [hkind]
      rfl
    rw [narrowTokens_keep hgap, Token.spell_cons, Token.spell_cons, String.append_assoc,
      htakes.spell_eq, h.spell_eq]
  settled := ⟨(fun hgap => nomatch hgap), htakes.settled⟩
  no_newline := List.forall_mem_cons.2
    ⟨Kind.noConfusion, fun u hu => h.no_newline u (htakes.suffix.subset hu)⟩
  comments := List.forall_mem_cons.2 ⟨Kind.noConfusion, fun u hu hkind =>
    List.mem_cons_of_mem t (h.comments u (htakes.suffix.subset hu) hkind)⟩
  first _ := by
    refine ⟨rfl, fun left? => gapBetween_of_number left? hkind rfl ?_⟩
    obtain ⟨c, cs, hc⟩ := hshape.exists_cons
    simp [Token.first?, hc]

/-- **The lexer finds settled tokens in a narrowed line.** -/
theorem Cut.exists_relexed (h : Cut start none ts) (left? : Option Token)
    (hline : ∀ t ∈ ts, t.kind ≠ .newline) : ∃ us, Relexed start left? ts us := by
  induction ts generalizing start left? with
  | nil => exact ⟨[], trivial, rfl, trivial, by simp, by simp, fun _ => ⟨rfl, fun _ => rfl⟩⟩
  | cons t ts ih =>
    have hlater : ∀ u ∈ ts, u.kind ≠ .newline := fun u hu => hline u (List.mem_cons_of_mem _ hu)
    obtain ⟨us, hus⟩ := ih h.2.2 (some t) hlater
    have hheads := hus.headChar?_eq h.2.2
    by_cases hgap : t.isGap = true
    · -- a gap is dropped or left, and no gap comes after it
      have hkind := kind_of_isGap hgap (hline t List.mem_cons_self)
      have hhead : ts.head?.any (·.isGap) = false := by
        cases ts with
        | nil => rfl
        | cons u ts => exact h.not_isGap_of_gap hkind (hlater u List.mem_cons_self)
      have hapart := h.headChar?_after_gap hkind hlater
      rw [← hheads] at hapart
      rw [hkind] at hus
      rcases gapBetween_cases left? ts.head? with hdropped | hkept
      · exact ⟨us, hus.drop hgap hhead hdropped⟩
      · exact ⟨Token.space :: us, hus.space hgap hhead hkept hapart⟩
    · rw [Bool.not_eq_true] at hgap
      by_cases hdangles : t.danglesExponent = true
      · -- a number that waits for a sign may find one now
        obtain ⟨hkind, htext⟩ := h.1.spellsDecimal hdangles
        rw [hkind] at hus
        obtain ⟨more, rest, htakes⟩ :=
          hus.cut.exists_takesIn hus.no_newline hus.settled htext rfl
        exact ⟨_, hus.join htakes h.1 hkind⟩
      · -- nothing else goes on with what stands next to it now
        have hnext := h.headChar?_narrowTokens hlater fun hd => absurd hd hdangles
        rw [← hheads] at hnext
        exact ⟨t :: us, hus.keep h.1 hnext hgap⟩

/-- **A narrowed code line is a settled code line.** -/
theorem CodeLine.settled_narrowed {l : String} (h : CodeLine l) :
    CodeLine (Token.spell (narrowTokens none (tokenize l)))
      ∧ Settled none (tokenize (Token.spell (narrowTokens none (tokenize l)))) := by
  obtain ⟨us, hus⟩ := (cut_tokenize l).exists_relexed none h.kind_ne_newline
  have htokens := hus.cut.tokenize_spell
  rw [hus.spell_eq] at htokens
  refine ⟨h.narrowed_of_no_comment ?_, ?_⟩
  · rw [htokens]
    exact fun u hu hkind => h.no_comment u (hus.comments u hu hkind) hkind
  · rw [htokens]
    exact hus.settled

/-- Narrowing a settled code line, with or without a space at its end, gives it back. -/
theorem CodeLine.collapseSpaces_of_settled {l : String} (h : CodeLine l)
    (hsettled : Settled none (tokenize l)) : collapseSpaces (l ++ " ") = l := by
  rw [h.collapseSpaces_append_blank, hsettled.narrowTokens_eq, spell_tokenize]

/-! ## §5. Comment marks. -/

/-- No number goes on with a slash. -/
theorem ne_slash_of_isNumberRun {hex : Bool} {prev : Char} {cs : List Char}
    (h : isNumberRun hex prev cs = true) : ∀ c ∈ cs, c ≠ '/' := by
  induction cs generalizing prev with
  | nil => simp
  | cons c cs ih =>
    rw [isNumberRun, Bool.and_eq_true] at h
    exact List.forall_mem_cons.2 ⟨ne_of_numberGoesOn h.1 '/' (by decide), ih h.2⟩

/-- In code, a slash is a token of its own. -/
theorem Token.WellShaped.text_of_slash (h : t.WellShaped start)
    (hdirective : t.kind ≠ .directive) (hcomment : t.kind ≠ .comment)
    (hmem : '/' ∈ t.text.toList) : t.kind = .punctuation ∧ t.text.toList = ['/'] := by
  unfold WellShaped at h
  cases hkind : t.kind with
  | directive => exact absurd hkind hdirective
  | comment => exact absurd hkind hcomment
  | newline =>
    rw [hkind] at h
    rw [show t.text.toList = ['\n'] from h] at hmem
    exact absurd hmem (by decide)
  | whitespace =>
    rw [hkind] at h
    exact absurd (h.2 '/' hmem) (by decide)
  | identifier =>
    rw [hkind] at h
    obtain ⟨c, cs, htext, hstart, hall⟩ := h
    rw [htext] at hmem
    rcases List.mem_cons.1 hmem with rfl | hmem
    · exact absurd hstart (by decide)
    · exact absurd (hall '/' hmem) (by decide)
  | number =>
    rw [hkind] at h
    obtain ⟨c, cs, htext, hstart, hrun⟩ := h
    rw [htext] at hmem
    rcases List.mem_cons.1 hmem with rfl | hmem
    · exact absurd (hstart.imp_right And.left) (by decide)
    · exact absurd rfl (ne_slash_of_isNumberRun hrun '/' hmem)
  | punctuation =>
    rw [hkind] at h
    obtain ⟨c, htext, -⟩ := h
    rw [htext, List.mem_singleton] at hmem
    subst hmem
    exact ⟨rfl, htext⟩

/-- **Tokens of code spell no comment mark**: a slash goes on with what would make it one. -/
theorem Cut.spells_no_mark (h : Cut start none ts) (hdirective : ∀ t ∈ ts, t.kind ≠ .directive)
    (hcomment : ∀ t ∈ ts, t.kind ≠ .comment) {d : Char} (hd : d = '/' ∨ d = '*') :
    ¬ ['/', d] <:+: (Token.spell ts).toList := by
  induction ts generalizing start with
  | nil => simp
  | cons t ts ih =>
    obtain ⟨hshape, hnext, hrest⟩ := h
    have hslash := hshape.text_of_slash (hdirective t List.mem_cons_self)
      (hcomment t List.mem_cons_self)
    rw [Token.spell_cons, String.toList_append]
    intro hmark
    rcases infix_pair_append hmark with hinside | hlater | ⟨hlast, hhead⟩
    · -- no token has room for a mark
      have htext := (hslash (hinside.subset List.mem_cons_self)).2
      have hlength := hinside.length_le
      simp [htext] at hlength
    · exact ih hrest (fun u hu => hdirective u (List.mem_cons_of_mem t hu))
        (fun u hu => hcomment u (List.mem_cons_of_mem t hu)) hlater
    · -- the slash would have gone on with the second character
      obtain ⟨hkind, htext⟩ := hslash (List.mem_of_getLast? hlast)
      rw [← hrest.head?_spell, hhead, Token.absorbs, hkind, htext] at hnext
      rcases hd with rfl | rfl
      · exact absurd hnext (by decide)
      · exact absurd hnext (by decide)

end GlslMinifier
