/-
  GlslMinifier.Proofs.OpenComment — block comments that never end.

  Stripping keeps a block comment whose closing mark is missing.  In a stripped text no
  block comment is closed, so the first one that is opened reaches to the end: the lines
  before it are lexed one by one, and what comes after it is never respelled.

  Main results:
    * `neverCloses_stripComments` — stripping leaves no closed block comment
    * `stayOpen_trimLines` — nor do the lines that are left of it
    * `tokenize_append_open` — an open block comment takes in all that follows
    * `exists_linesRespelled` — respelling a text respells its lines up to such a comment
    * `exists_lines_keeping_role` — respelling such lines keeps each line in its role
-/
import GlslMinifier.Proofs.PlainLine

namespace GlslMinifier

/-! ## §1. Closing marks. -/

/-- After no opening mark there is a closing one. -/
def NeverCloses (cs : List Char) : Prop :=
  ∀ body, '/' :: '*' :: body <:+ cs → ¬ ['*', '/'] <:+: body

theorem NeverCloses.of_suffix {cs ds : List Char} (h : NeverCloses ds) (hpart : cs <:+ ds) :
    NeverCloses cs :=
  fun body hbody => h body (hbody.trans hpart)

/-- One more character closes no comment, if it opens none that is closed. -/
theorem NeverCloses.cons {c : Char} {cs : List Char} (h : NeverCloses cs)
    (hopens : ∀ body, c = '/' → cs = '*' :: body → ¬ ['*', '/'] <:+: body) :
    NeverCloses (c :: cs) := by
  intro body hbody
  rcases List.suffix_cons_iff.1 hbody with heq | hlater
  · obtain ⟨rfl, rfl⟩ := List.cons.inj heq
    exact hopens body rfl rfl
  · exact h body hlater

/-- Blanking comments brings nothing but blanks to the front. -/
theorem head?_blankBlockComments {cs : List Char} {c : Char}
    (h : (blankBlockComments cs).head? = some c) (hc : c ≠ ' ') : cs.head? = some c := by
  fun_cases blankBlockComments cs with
  | case1 cs body rest hfound =>
    -- a comment with an end is a blank now
    rw [blankBlockComments] at h
    split at h
    · exact absurd (Option.some.inj h).symm hc
    · exact h
  | case2 cs hfound =>
    rw [blankBlockComments] at h
    split at h
    · exact absurd (Option.some.inj h).symm hc
    · exact h
  | case3 d cs hnot =>
    rw [blankBlockComments] at h
    · exact h
    · exact hnot
  | case4 => simp [blankBlockComments] at h

theorem neverCloses_blankBlockComments (cs : List Char) :
    NeverCloses (blankBlockComments cs) := by
  fun_induction blankBlockComments cs with
  | case1 cs body rest hfound ih =>
    exact ih.cons fun _ hblank => absurd hblank (by decide)
  | case2 cs hfound =>
    -- the text that is kept holds no closing mark
    rw [splitClose?_eq_none_iff] at hfound
    intro body hbody
    have hpart : body <:+ cs := by
      have hlength := hbody.length_le
      simp only [List.length_cons] at hlength
      have htail : ∀ ds : List Char, ds <:+ '/' :: '*' :: ds := fun ds =>
        (List.suffix_cons '*' ds).trans (List.suffix_cons '/' _)
      exact List.suffix_of_suffix_length_le ((htail body).trans hbody) (htail cs) (by omega)
    exact fun hclose => hfound (hclose.trans hpart.isInfix)
  | case3 c cs hnot ih =>
    refine ih.cons fun body hslash hstar => ?_
    -- a mark at the front would stand at the front of the text before
    have hhead : cs.head? = some '*' :=
      head?_blankBlockComments (by rw [hstar]; rfl) (by decide)
    obtain ⟨ds, rfl⟩ : ∃ ds, cs = '*' :: ds := by
      cases cs with
      | nil => simp at hhead
      | cons d ds => exact ⟨ds, by simpa using hhead⟩
    exact absurd rfl (hnot ds hslash)
  | case4 =>
    intro body hbody
    simp at hbody

/-- Cutting line comments brings no two characters together on a line. -/
theorem infix_cutLineComments {a b : Char} (hb : b ≠ '\n') {cs : List Char}
    (h : [a, b] <:+: cutLineComments cs) : [a, b] <:+: cs := by
  fun_induction cutLineComments cs with
  | case1 cs ih =>
    have hrest := (ih h).trans (List.dropWhile_suffix (· != '\n')).isInfix
    exact List.infix_cons (List.infix_cons hrest)
  | case2 c cs hnot ih =>
    rcases List.infix_cons_iff.1 h with hfirst | hlater
    · rw [List.cons_prefix_cons] at hfirst
      obtain ⟨rfl, tail, htail⟩ := hfirst
      have hhead : cs.head? = some b := head?_cutLineComments (by rw [← htail]; rfl) hb
      cases cs with
      | nil => simp at hhead
      | cons d ds =>
        obtain rfl : d = b := by simpa using hhead
        exact ⟨[], ds, rfl⟩
    · exact List.infix_cons (ih hlater)
  | case3 => exact h

theorem NeverCloses.cutLineComments {cs : List Char} (h : NeverCloses cs) :
    NeverCloses (cutLineComments cs) := by
  fun_induction GlslMinifier.cutLineComments cs with
  | case1 cs ih =>
    refine ih (h.of_suffix ((List.dropWhile_suffix _).trans ?_))
    exact (List.suffix_cons _ _).trans (List.suffix_cons _ _)
  | case2 c cs hnot ih =>
    refine (ih (h.of_suffix (List.suffix_cons c cs))).cons fun body hslash hstar => ?_
    -- the mark stands in the text before, and what follows it there is cut
    have hhead : cs.head? = some '*' :=
      head?_cutLineComments (by rw [hstar]; rfl) (by decide)
    cases cs with
    | nil => simp at hhead
    | cons d ds =>
      obtain rfl : d = '*' := by simpa using hhead
      obtain rfl : GlslMinifier.cutLineComments ds = body := by
        rw [GlslMinifier.cutLineComments] at hstar
        · exact (List.cons.inj hstar).2
        · exact fun _ heq => absurd heq (by decide)
      subst hslash
      exact fun hclose => h ds (List.suffix_refl _) (infix_cutLineComments (by decide) hclose)
  | case3 => exact h

/-- Stripping leaves no closed block comment. -/
theorem neverCloses_stripComments (text : String) : NeverCloses (stripComments text).toList := by
  unfold stripComments
  rw [String.toList_ofList]
  exact (neverCloses_blankBlockComments _).cutLineComments

/-! ## §2. Lines. -/

/-- No line opens a block comment that a later line closes. -/
def StayOpen (ls : List String) : Prop :=
  ls.Pairwise fun l m => ['/', '*'] <:+: l.toList → ¬ ['*', '/'] <:+: m.toList

/-- Two characters in a row do not begin with another one. -/
theorem infix_of_infix_cons {a b c : Char} (ha : a ≠ c) {cs : List Char}
    (h : [a, b] <:+: c :: cs) : [a, b] <:+: cs :=
  (List.infix_cons_iff.1 h).resolve_left fun hfirst => ha (List.cons_prefix_cons.1 hfirst).1

/-- Two characters in a row stand on one side of any other one. -/
theorem infix_of_infix_append_cons {a b c : Char} (ha : a ≠ c) (hb : b ≠ c)
    {cs ds : List Char} (h : [a, b] <:+: cs ++ c :: ds) : [a, b] <:+: cs ∨ [a, b] <:+: ds := by
  rcases infix_pair_append h with hfirst | hlater | ⟨-, hhead⟩
  · exact .inl hfirst
  · exact .inr (infix_of_infix_cons ha hlater)
  · exact absurd (Option.some.inj hhead).symm hb

theorem exists_line_of_infix {a b : Char} (ha : a ≠ '\n') (hb : b ≠ '\n') {ls : List String}
    (h : [a, b] <:+: (unlines ls).toList) : ∃ l ∈ ls, [a, b] <:+: l.toList := by
  induction ls with
  | nil => simp at h
  | cons l ls ih =>
    cases ls with
    | nil => exact ⟨l, List.mem_cons_self, by rwa [unlines_singleton] at h⟩
    | cons m ls =>
      rw [unlines_cons_cons, String.toList_append, String.toList_append, List.append_assoc] at h
      rcases infix_of_infix_append_cons ha hb h with hfirst | hlater
      · exact ⟨l, List.mem_cons_self, hfirst⟩
      · obtain ⟨k, hk, hpart⟩ := ih hlater
        exact ⟨k, List.mem_cons_of_mem _ hk, hpart⟩

theorem stayOpen_of_neverCloses {ls : List String} (h : NeverCloses (unlines ls).toList) :
    StayOpen ls := by
  induction ls with
  | nil => exact .nil
  | cons l ls ih =>
    cases ls with
    | nil => exact List.pairwise_singleton _ _
    | cons m ls =>
      have htext : (unlines (l :: m :: ls)).toList
          = l.toList ++ '\n' :: (unlines (m :: ls)).toList := by
        rw [unlines_cons_cons, String.toList_append, String.toList_append, List.append_assoc]
        rfl
      rw [htext] at h
      have hlater : (unlines (m :: ls)).toList <:+ l.toList ++ '\n' :: (unlines (m :: ls)).toList :=
        (List.suffix_cons _ _).trans (List.suffix_append _ _)
      refine .cons (fun k hk hopens hcloses => ?_) (ih (h.of_suffix hlater))
      -- the closing mark of the later line would come after the opening one
      obtain ⟨before, body, hl⟩ := hopens
      have hrest := h (body ++ '\n' :: (unlines (m :: ls)).toList) ⟨before, by rw [← hl]; simp⟩
      refine hrest ((hcloses.trans (infix_unlines hk)).trans ?_)
      exact ((List.suffix_cons _ _).trans (List.suffix_append _ _)).isInfix

theorem StayOpen.trimLines {ls : List String} (h : StayOpen ls) : StayOpen (trimLines ls) := by
  have htrimmed : StayOpen (ls.map trim) := List.Pairwise.map trim
    (fun l m hlm hopens hcloses => hlm (hopens.trans (infix_trim l)) (hcloses.trans (infix_trim m)))
    h
  exact htrimmed.filter _

/-- The lines of a stripped text close no block comment. -/
theorem stayOpen_stripped (text : String) :
    StayOpen (trimLines (lines (stripComments text))) := by
  have hnever := neverCloses_stripComments text
  rw [← unlines_lines (stripComments text)] at hnever
  exact (stayOpen_of_neverCloses hnever).trimLines

/-! ## §3. Lexing up to an open comment. -/

/-- Only a block comment without an end goes on over a line break. -/
theorem exists_body_of_absorbs_newline {t : Token} {start : Bool} (ht : t.WellShaped start)
    (h : t.absorbs '\n' = true) :
    ∃ body, t = ⟨.comment, String.ofList ('/' :: '*' :: body)⟩ ∧ splitClose? body = none := by
  have hkind : t.kind = .comment := by
    by_contra hkind
    have hline := Kind.absorbs_newline hkind t.text.toList
    exact absurd h (by simp [Token.absorbs, hline])
  unfold Token.WellShaped at ht
  rw [hkind] at ht
  unfold Token.absorbs at h
  rw [hkind] at h
  rcases ht with ⟨body, htext, -⟩ | ⟨body, htext, -⟩
  · rw [htext] at h
    exact absurd h (by simp [Kind.absorbs, commentAbsorbs])
  · rw [htext] at h
    refine ⟨body, ?_, by simpa [Kind.absorbs, commentAbsorbs] using h⟩
    obtain ⟨kind, text⟩ := t
    rw [← htext, String.ofList_toList, ← hkind]

theorem opens_of_absorbs_newline {l : String} {t : Token} (ht : t ∈ tokenize l)
    (h : t.absorbs '\n' = true) : ['/', '*'] <:+: l.toList := by
  obtain ⟨start, hshape⟩ := wellShaped_of_mem_tokenize ht
  obtain ⟨body, rfl, -⟩ := exists_body_of_absorbs_newline hshape h
  have hpart := infix_of_mem_tokenize ht
  rw [String.toList_ofList] at hpart
  exact List.IsInfix.trans ⟨[], body, rfl⟩ hpart

/-- A comment without an end is the last token of its text. -/
theorem Cut.eq_nil_of_open {lineStart : Bool} {body : List Char} {ts : List Token}
    (h : Cut lineStart none (⟨.comment, String.ofList ('/' :: '*' :: body)⟩ :: ts))
    (hopen : splitClose? body = none) : ts = [] := by
  obtain ⟨-, hnext, hrest⟩ := h
  cases ts with
  | nil => rfl
  | cons u us =>
    obtain ⟨c, cs, hc⟩ := hrest.1.exists_cons
    -- whatever came next would continue the comment
    simp [Token.headChar?, Token.first?, hc, Token.absorbs, Kind.absorbs, commentAbsorbs,
      hopen] at hnext

/-- **An open block comment takes in all that follows**, when nothing there closes it. -/
theorem tokenize_append_open {l rest : String} {t : Token} (ht : t ∈ tokenize l)
    (hopen : t.absorbs '\n' = true) (hstart : rest.toList.head? ≠ some '/')
    (hrest : ¬ ['*', '/'] <:+: rest.toList) :
    ∃ before, tokenize l = before ++ [t]
      ∧ tokenize (l ++ rest) = before ++ [⟨.comment, t.text ++ rest⟩] := by
  obtain ⟨start, hshape⟩ := wellShaped_of_mem_tokenize ht
  obtain ⟨body, rfl, hbody⟩ := exists_body_of_absorbs_newline hshape hopen
  obtain ⟨before, after, htokens⟩ := List.append_of_mem ht
  have hcut := cut_tokenize l
  have hspell := spell_tokenize l
  rw [htokens] at hcut hspell
  obtain rfl : after = [] := (cut_append.1 hcut).2.eq_nil_of_open hbody
  refine ⟨before, htokens, ?_⟩
  -- the comment goes on to the end of the text, so its token is a lexeme still
  have htext : (String.ofList ('/' :: '*' :: body) ++ rest).toList
      = '/' :: '*' :: (body ++ rest.toList) := by
    simp [String.toList_append]
  have hclosed : splitClose? (body ++ rest.toList) = none := by
    rw [splitClose?_eq_none_iff] at hbody ⊢
    intro hclose
    rcases infix_pair_append hclose with hfirst | hlater | ⟨-, hhead⟩
    · exact hbody hfirst
    · exact hrest hlater
    · exact hstart hhead
  obtain ⟨hbefore, -⟩ := cut_append.1 hcut
  rw [tokenize_eq_iff, cut_append]
  refine ⟨⟨?_, .inr ⟨_, htext, by simp [hclosed]⟩, rfl, trivial⟩, ?_⟩
  · show Cut true (Token.first? ⟨.comment, _⟩) before
    unfold Token.first?
    rw [htext]
    simpa [Token.headChar?, Token.first?] using hbefore
  · rw [← hspell, Token.spell_append, Token.spell_append]
    simp [Token.spell_cons, String.append_assoc]

/-! ## §4. Respelled lines with an open comment. -/

/-- A last token that is no identifier stays. -/
theorem exists_concat_of_respells {ts us : List Token} {t : Token}
    (hkind : t.kind ≠ .identifier) (h : List.Forall₂ Token.Respells (ts ++ [t]) us) :
    ∃ ds, us = ds ++ [t] ∧ List.Forall₂ Token.Respells ts ds := by
  obtain ⟨ds, es, rfl, hds, hes⟩ := exists_append_of_forall₂ h
  obtain ⟨u, vs, hu, hvs, rfl⟩ := List.forall₂_cons_left_iff.1 hes
  rw [List.forall₂_nil_left_iff] at hvs
  subst hvs
  obtain rfl : u = t := hu.resolve_right fun hword => hkind hword.1
  exact ⟨ds, rfl, hds⟩

/-- The second lines may stand for the first ones in a respelled text. -/
inductive LinesRespelled : List String → List String → Prop
  | nil : LinesRespelled [] []
  /-- A line that ends at its line break. -/
  | ends {l m : String} {ls ms : List String} (ends : ∀ t ∈ tokenize l, t.absorbs '\n' = false)
    (tokens : List.Forall₂ Token.Respells (tokenize l) (tokenize m))
    (later : LinesRespelled ls ms) : LinesRespelled (l :: ls) (m :: ms)
  /-- A line that opens a block comment; the lines after it are a part of it. -/
  | opens {l m : String} {ls : List String} {t : Token} (opens : t ∈ tokenize l)
    (goes_on : t.absorbs '\n' = true)
    (tokens : List.Forall₂ Token.Respells (tokenize l) (tokenize m))
    (unclosed : ∀ k ∈ ls, ¬ ['*', '/'] <:+: k.toList) : LinesRespelled (l :: ls) (m :: ls)

theorem tokenize_spell_respelled {l : String} {us : List Token}
    (h : List.Forall₂ Token.Respells (tokenize l) us) :
    List.Forall₂ Token.Respells (tokenize l) (tokenize (Token.spell us)) := by
  rwa [((cut_tokenize l).respelled h).tokenize_spell]

/-- Respelling a text whose first line opens a block comment respells that line only. -/
theorem exists_respelled_open_line {l : String} {ls : List String} {t : Token}
    (ht : t ∈ tokenize l) (habsorbs : t.absorbs '\n' = true)
    (hunclosed : ∀ k ∈ ls, ¬ ['*', '/'] <:+: k.toList) {us : List Token}
    (hrel : List.Forall₂ Token.Respells (tokenize (unlines (l :: ls))) us) :
    ∃ m, Token.spell us = unlines (m :: ls)
      ∧ List.Forall₂ Token.Respells (tokenize l) (tokenize m) := by
  cases ls with
  | nil =>
    rw [unlines_singleton] at hrel
    exact ⟨Token.spell us, (unlines_singleton _).symm, tokenize_spell_respelled hrel⟩
  | cons k ls =>
    have hrest : ¬ ['*', '/'] <:+: ("\n" ++ unlines (k :: ls)).toList := by
      rw [String.toList_append]
      intro hclose
      obtain ⟨line, hline, hpart⟩ := exists_line_of_infix (by decide) (by decide)
        (infix_of_infix_cons (by decide) hclose)
      exact hunclosed line hline hpart
    have hstart : ("\n" ++ unlines (k :: ls)).toList.head? ≠ some '/' := by
      rw [String.toList_append]
      exact fun hslash => absurd (Option.some.inj hslash) (by decide)
    obtain ⟨before, hbefore, htokens⟩ := tokenize_append_open ht habsorbs hstart hrest
    rw [unlines_cons_cons, String.append_assoc, htokens] at hrel
    -- the comment is no identifier, so it stays, and with it all later lines
    obtain ⟨ds, rfl, hds⟩ := exists_concat_of_respells Kind.noConfusion hrel
    have hfirst : List.Forall₂ Token.Respells (tokenize l) (ds ++ [t]) := by
      rw [hbefore]
      exact List.rel_append hds (.cons (.inl rfl) .nil)
    refine ⟨Token.spell (ds ++ [t]), ?_, tokenize_spell_respelled hfirst⟩
    rw [unlines_cons_cons, Token.spell_append, Token.spell_append]
    simp [Token.spell_cons, String.append_assoc]

/-- **Respelling a text respells its lines**, up to one that leaves a block comment open. -/
theorem exists_linesRespelled {ls : List String} (hopen : StayOpen ls) {us : List Token}
    (hrel : List.Forall₂ Token.Respells (tokenize (unlines ls)) us) :
    ∃ ms, Token.spell us = unlines ms ∧ LinesRespelled ls ms := by
  induction ls generalizing us with
  | nil =>
    have hempty : tokenize (unlines []) = [] := by simp [tokenize, scan]
    rw [hempty] at hrel
    cases hrel
    exact ⟨[], rfl, .nil⟩
  | cons l ls ih =>
    obtain ⟨hlater, hopen'⟩ := List.pairwise_cons.1 hopen
    by_cases habsorbs : ∃ t ∈ tokenize l, t.absorbs '\n' = true
    · -- the line opens a comment, and the others are a part of it
      obtain ⟨t, ht, habsorbs⟩ := habsorbs
      have hunclosed : ∀ k ∈ ls, ¬ ['*', '/'] <:+: k.toList := fun k hk =>
        hlater k hk (opens_of_absorbs_newline ht habsorbs)
      obtain ⟨m, hspell, hfirst⟩ := exists_respelled_open_line ht habsorbs hunclosed hrel
      exact ⟨m :: ls, hspell, .opens ht habsorbs hfirst hunclosed⟩
    · have hends : ∀ t ∈ tokenize l, t.absorbs '\n' = false := fun t ht =>
        Bool.eq_false_iff.2 fun h => habsorbs ⟨t, ht, h⟩
      cases ls with
      | nil =>
        rw [unlines_singleton] at hrel
        exact ⟨[Token.spell us], (unlines_singleton _).symm,
          .ends hends (tokenize_spell_respelled hrel) .nil⟩
      | cons k ls =>
        -- the line ends at its line break, and the others are respelled on their own
        rw [unlines_cons_cons, tokenize_append_newline hends] at hrel
        obtain ⟨ds, es, rfl, hds, hes⟩ := exists_lineBreak_of_respells hrel
        obtain ⟨ms, hspell, hlines⟩ := ih hopen' hes
        have hlines' := LinesRespelled.ends hends (tokenize_spell_respelled hds) hlines
        refine ⟨Token.spell ds :: ms, ?_, hlines'⟩
        cases hlines <;> rw [unlines_cons_cons, ← hspell, spell_append_lineBreak]

/-! ## §5. The roles of respelled lines. -/

/-- `m` may stand for the line `l` in a respelled text: it is a trimmed line too, for the
    preprocessor just when `l` is, and then it is `l`. -/
structure KeepsRole (l m : String) : Prop where
  trimmed : IsTrimmed m
  no_break : '\n' ∉ m.toList
  kind : LineKind.ofLine m = LineKind.ofLine l
  directive : LineKind.ofLine l = .directive → m = l

theorem KeepsRole.refl {l : String} (htrimmed : IsTrimmed l) (hbreak : '\n' ∉ l.toList) :
    KeepsRole l l :=
  ⟨htrimmed, hbreak, rfl, fun _ => rfl⟩

/-- Respelling a line keeps it in its role. -/
theorem keepsRole_of_respells {l m : String} (htrimmed : IsTrimmed l) (hbreak : '\n' ∉ l.toList)
    (hrel : List.Forall₂ Token.Respells (tokenize l) (tokenize m)) : KeepsRole l m := by
  rw [← spell_tokenize m]
  exact ⟨htrimmed.respelled hrel, not_newline_mem_respelled hbreak hrel, ofLine_respelled hrel,
    fun hline => spell_of_directive hbreak (head?_of_directive hline) hrel⟩

/-- Respelled lines keep their roles. -/
theorem LinesRespelled.keepsRole {ls ms : List String} (h : LinesRespelled ls ms)
    (htrimmed : ∀ l ∈ ls, IsTrimmed l) (hbreak : ∀ l ∈ ls, '\n' ∉ l.toList) :
    List.Forall₂ KeepsRole ls ms := by
  induction h with
  | nil => exact .nil
  | ends _ htokens _ ih =>
    rw [List.forall_mem_cons] at htrimmed hbreak
    exact .cons (keepsRole_of_respells htrimmed.1 hbreak.1 htokens) (ih htrimmed.2 hbreak.2)
  | opens _ _ htokens _ =>
    rw [List.forall_mem_cons] at htrimmed hbreak
    exact .cons (keepsRole_of_respells htrimmed.1 hbreak.1 htokens)
      (List.forall₂_same.2 fun k hk => .refl (htrimmed.2 k hk) (hbreak.2 k hk))

/-- **Respelling lines keeps each of them in its role**, also when a block comment is left
    open on one of them. -/
theorem exists_lines_keeping_role {ls : List String} (htrimmed : ∀ l ∈ ls, IsTrimmed l)
    (hbreak : ∀ l ∈ ls, '\n' ∉ l.toList) (hopen : StayOpen ls) {us : List Token}
    (hrel : List.Forall₂ Token.Respells (tokenize (unlines ls)) us) :
    ∃ ms, Token.spell us = unlines ms ∧ List.Forall₂ KeepsRole ls ms := by
  obtain ⟨ms, hspell, hlines⟩ := exists_linesRespelled hopen hrel
  exact ⟨ms, hspell, hlines.keepsRole htrimmed hbreak⟩

end GlslMinifier
