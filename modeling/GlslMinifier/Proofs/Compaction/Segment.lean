/-
  GlslMinifier.Proofs.Compaction.Segment — lines merged and narrowed.

  A segment holds either one directive line or some code lines (`Segment.Holds`); the
  segments of a text hold its lines in order.  Narrowing what a segment holds gives one
  plain line again, with the same tokens but for the white space.

  Main results:
    * `segments_cons_code` — what one more code line does to the segments
    * `segments_holds` — the segments of a list of lines hold just these lines
    * `Segment.Holds.narrowed` — what comes out of one segment
    * `joinedSigns_compactSource` — a compacted text has the tokens of its source
-/
import GlslMinifier.Proofs.PlainLine

namespace GlslMinifier

/-! ## §1. One more line. -/

/-- The run of code that a list of segments begins with, if it begins with one. -/
def firstRun : List Segment → String
  | ⟨.code, run⟩ :: _ => run
  | _ => ""

/-- The segments after that run. -/
def afterRun : List Segment → List Segment
  | ⟨.code, _⟩ :: later => later
  | segs => segs

theorem segments_cons_directive {l : String} (h : LineKind.ofLine l = .directive)
    (ls : List String) : segments (l :: ls) = ⟨.directive, l⟩ :: segments ls := by
  rw [segments, h]

/-- A code line goes to the front of the first run. -/
theorem segments_cons_code {l : String} (h : LineKind.ofLine l = .code) (ls : List String) :
    segments (l :: ls)
      = ⟨.code, l ++ " " ++ firstRun (segments ls)⟩ :: afterRun (segments ls) := by
  rw [segments, h]
  rcases segments ls with _ | ⟨⟨kind, run⟩, later⟩
  · simp [firstRun, afterRun]
  · cases kind <;> simp [firstRun, afterRun]

theorem join_firstRun (segs : List Segment) :
    String.join (segs.map (·.text))
      = firstRun segs ++ String.join ((afterRun segs).map (·.text)) := by
  rcases segs with _ | ⟨⟨kind, run⟩, later⟩
  · simp [firstRun, afterRun]
  · cases kind with
    | directive => simp [firstRun, afterRun]
    | code =>
      rw [List.map_cons, String.join_cons]
      rfl

/-! ## §2. What a segment holds. -/

/-- The segment is made of these lines: one directive, or code lines with a space after
    each. -/
def Segment.Holds (s : Segment) (run : List String) : Prop :=
  match s.kind with
  | .directive => run = [s.text] ∧ LineKind.ofLine s.text = .directive
  | .code => run ≠ [] ∧ (∀ l ∈ run, LineKind.ofLine l = .code)
      ∧ s.text = String.join (run.map (· ++ " "))

/-- The segments of a list of lines hold just these lines. -/
theorem segments_holds (ls : List String) :
    ∃ runs, List.Forall₂ Segment.Holds (segments ls) runs ∧ runs.flatten = ls := by
  induction ls with
  | nil => exact ⟨[], .nil, rfl⟩
  | cons line ls ih =>
    obtain ⟨runs, hholds, hflat⟩ := ih
    rw [segments]
    split
    next hline =>
      -- a directive is a segment of its own
      refine ⟨[line] :: runs, .cons ⟨rfl, hline⟩ hholds, ?_⟩
      rw [List.flatten_cons, hflat]
      rfl
    next text later hline hlater =>
      -- the line joins the run that comes after it
      rw [hlater] at hholds
      cases hholds with
      | @cons _ run _ runs hrun hholds =>
        obtain ⟨-, hcode, htext⟩ := hrun
        refine ⟨(line :: run) :: runs, .cons ⟨by simp, ?_, ?_⟩ hholds, ?_⟩
        · exact List.forall_mem_cons.2 ⟨hline, hcode⟩
        · show line ++ " " ++ text = _
          rw [List.map_cons, String.join_cons, ← htext]
        · rw [← hflat]
          rfl
    next hline _ =>
      -- the line begins a run
      refine ⟨[line] :: runs, .cons ⟨by simp, ?_, ?_⟩ hholds, ?_⟩
      · simpa using hline
      · show line ++ " " = _
        rw [List.map_singleton, String.join_cons, String.join_nil, String.append_empty]
      · rw [List.flatten_cons, hflat]
        rfl

/-! ## §3. Runs of code lines. -/

/-- Code lines in a row are one code line with a space at the end. -/
theorem exists_codeLine_join {run : List String} (hne : run ≠ [])
    (h : ∀ l ∈ run, CodeLine l) :
    ∃ l, CodeLine l ∧ String.join (run.map (· ++ " ")) = l ++ " "
      ∧ joinedSigns (tokenize l) = run.flatMap (fun m => joinedSigns (tokenize m))
      ∧ ∀ t ∈ tokenize l, t = Token.space ∨ ∃ m ∈ run, t ∈ tokenize m := by
  induction run with
  | nil => exact absurd rfl hne
  | cons first later ih =>
    have hfirst := h first List.mem_cons_self
    by_cases hlater : later = []
    · subst hlater
      refine ⟨first, hfirst, ?_, ?_, fun t ht => .inr ⟨first, List.mem_cons_self, ht⟩⟩
      · rw [List.map_singleton, String.join_cons, String.join_nil, String.append_empty]
      · rw [List.flatMap_cons, List.flatMap_nil, List.append_nil]
    · obtain ⟨rest, hrest, hjoin, hsigns, htokens⟩ :=
        ih hlater fun l hl => h l (List.mem_cons_of_mem _ hl)
      have happend := hfirst.tokenize_append_space rest hrest.cut hrest.head?_any_isBlank
      refine ⟨first ++ " " ++ rest, hfirst.append_space hrest, ?_, ?_, ?_⟩
      · rw [List.map_cons, String.join_cons, hjoin, ← String.append_assoc]
      · have hsign : ∀ t : Token, t.doubles Token.space = false := fun t =>
          Token.doubles_gap rfl
        rw [happend, joinedSigns_append_trivia rfl hsign, hsigns, List.flatMap_cons]
      · intro t ht
        rw [happend, List.mem_append, List.mem_cons] at ht
        rcases ht with ht | ht | ht
        · exact .inr ⟨first, List.mem_cons_self, ht⟩
        · exact .inl ht
        · refine (htokens t ht).imp_right fun ⟨m, hm, hmem⟩ => ?_
          exact ⟨m, List.mem_cons_of_mem _ hm, hmem⟩

/-- The space at the end of a run vanishes when the run is narrowed. -/
theorem CodeLine.collapseSpaces_append_blank {l : String} (h : CodeLine l) :
    collapseSpaces (l ++ " ") = Token.spell (narrowTokens none (tokenize l)) := by
  obtain ⟨t, ht, hgap⟩ := (cut_tokenize l).getLast?_not_isGap h.trimmedTokens
  rw [collapseSpaces_eq, h.tokenize_append_blank, narrowTokens_append_gap ht hgap rfl]

/-- Narrowing brings no line break into a line. -/
theorem not_newline_mem_narrowed {l : String} (h : '\n' ∉ l.toList) (left? : Option Token) :
    '\n' ∉ (Token.spell (narrowTokens left? (tokenize l))).toList := by
  rw [Token.toList_spell, List.mem_flatMap]
  intro hbreak
  obtain ⟨t, ht, hmem⟩ := hbreak
  rcases mem_narrowTokens ht with rfl | ht
  · exact absurd hmem (by decide)
  · exact h ((infix_of_mem_tokenize ht).subset hmem)

/-- First and last token of a line are no gaps, so narrowing leaves them first and last. -/
theorem CodeLine.trimmedTokens_narrowed {l : String} (h : CodeLine l) :
    (narrowTokens none (tokenize l)).head? = (tokenize l).head?
      ∧ TrimmedTokens (narrowTokens none (tokenize l)) := by
  have hfirst := head?_narrowTokens_none ((cut_tokenize l).head?_not_isGap h.trimmedTokens)
  obtain ⟨u, hu, hgap⟩ := (cut_tokenize l).getLast?_not_isGap h.trimmedTokens
  have hlast := getLast?_narrowTokens none hu hgap
  refine ⟨hfirst, ?_⟩
  have hends := h.trimmedTokens
  unfold TrimmedTokens at hends ⊢
  rw [hfirst, hlast, ← hu]
  exact hends

/-- A narrowed code line is a code line, if no comment comes up in it. -/
theorem CodeLine.narrowed_of_no_comment {l : String} (h : CodeLine l)
    (hcomment : ∀ t ∈ tokenize (Token.spell (narrowTokens none (tokenize l))),
      t.kind ≠ .comment) : CodeLine (Token.spell (narrowTokens none (tokenize l))) := by
  obtain ⟨hfirst, hends⟩ := h.trimmedTokens_narrowed
  refine { trimmed := hends.isTrimmed_spell, no_break := not_newline_mem_narrowed h.no_break none,
           no_comment := hcomment, is_code := ?_ }
  -- the line begins as it did
  obtain ⟨⟨t, c, ht, hc, -⟩, -⟩ := h.trimmedTokens
  have hhead := head?_spell_of_first? ht hc
  rw [spell_tokenize] at hhead
  rw [ofLine_eq_code_iff, head?_spell_of_first? (hfirst.trans ht) hc, ← hhead]
  exact ofLine_eq_code_iff.1 h.is_code

/-- A narrowed code line is a code line, and is lexed as it was narrowed. -/
theorem CodeLine.narrowed {l : String} (h : CodeLine l) (hexp : NoLooseSign (tokenize l)) :
    tokenize (Token.spell (narrowTokens none (tokenize l))) = narrowTokens none (tokenize l)
      ∧ CodeLine (Token.spell (narrowTokens none (tokenize l))) := by
  have htokens :=
    ((cut_tokenize l).narrowTokens none h.kind_ne_newline hexp).tokenize_spell
  refine ⟨htokens, h.narrowed_of_no_comment ?_⟩
  rw [htokens]
  intro t ht
  rcases mem_narrowTokens ht with rfl | ht
  · decide
  · exact h.no_comment t ht

/-! ## §4. Narrowed segments. -/

/-- The text of a segment in the compacted text. -/
def Segment.narrowed (s : Segment) : String := (s.mapCode collapseSpaces).text

/-- What comes out of one segment. -/
theorem Segment.Holds.narrowed {s : Segment} {run : List String} (h : s.Holds run)
    (hplain : ∀ l ∈ run, PlainLine l)
    (hexp : ∀ l ∈ run, ∀ t ∈ tokenize l, t.danglesExponent = false) :
    PlainLine s.narrowed
      ∧ joinedSigns (tokenize s.narrowed) = run.flatMap fun l => joinedSigns (tokenize l) := by
  obtain ⟨kind, text⟩ := s
  cases kind with
  | directive =>
    obtain ⟨rfl, -⟩ := h
    refine ⟨hplain text List.mem_cons_self, ?_⟩
    rw [List.flatMap_cons, List.flatMap_nil, List.append_nil]
    rfl
  | code =>
    obtain ⟨hne, hcode, rfl⟩ := h
    -- the run is one code line with a space at the end, and that space goes
    have hlines : ∀ l ∈ run, CodeLine l := fun l hl => ⟨hplain l hl, hcode l hl⟩
    obtain ⟨l, hl, hjoin, hsigns, htokens⟩ := exists_codeLine_join hne hlines
    have hclosed : NoLooseSign (tokenize l) := by
      refine noLooseSign_of_forall fun t ht => ?_
      rcases htokens t ht with rfl | ⟨m, hm, hmem⟩
      · decide
      · exact hexp m hm t hmem
    obtain ⟨hlexed, hcodeLine⟩ := hl.narrowed hclosed
    show PlainLine (collapseSpaces _) ∧ joinedSigns (tokenize (collapseSpaces _)) = _
    rw [hjoin, hl.collapseSpaces_append_blank, hlexed]
    refine ⟨hcodeLine.toPlainLine, ?_⟩
    rw [joinedSigns_narrowTokens (cut_tokenize l) none hl.kind_ne_newline, hsigns]

theorem compactSource_eq (separator source : String) :
    compactSource separator source
      = joinTrimmed separator ((segments (trimLines (lines source))).map Segment.narrowed) := by
  rw [compactSource, List.map_map]
  rfl

/-- What comes out of the segments of a text, one plain line for each. -/
theorem narrowed_of_holds {segs : List Segment} {runs : List (List String)}
    (hrel : List.Forall₂ Segment.Holds segs runs) (hplain : ∀ l ∈ runs.flatten, PlainLine l)
    (hexp : ∀ l ∈ runs.flatten, ∀ t ∈ tokenize l, t.danglesExponent = false) :
    (∀ piece ∈ segs.map Segment.narrowed, PlainLine piece)
      ∧ (segs.map Segment.narrowed).flatMap (fun piece => joinedSigns (tokenize piece))
        = runs.flatten.flatMap fun l => joinedSigns (tokenize l) := by
  induction hrel with
  | nil => exact ⟨by simp, rfl⟩
  | @cons s run segs runs hs _ ih =>
    rw [List.flatten_cons] at hplain hexp ⊢
    obtain ⟨hpiece, hsigns⟩ := hs.narrowed
      (fun l hl => hplain l (List.mem_append_left _ hl))
      (fun l hl => hexp l (List.mem_append_left _ hl))
    obtain ⟨hlater, hrest⟩ := ih (fun l hl => hplain l (List.mem_append_right _ hl))
      (fun l hl => hexp l (List.mem_append_right _ hl))
    constructor
    · rw [List.map_cons]
      exact List.forall_mem_cons.2 ⟨hpiece, hlater⟩
    · rw [List.map_cons, List.flatMap_cons, List.flatMap_append, hsigns, hrest]

/-- **A compacted text has the tokens of its source**, but for white space, and the same
    doubled signs. -/
theorem joinedSigns_compactSource {ls : List String} (hplain : ∀ l ∈ ls, PlainLine l)
    (hexp : ∀ l ∈ ls, ∀ t ∈ tokenize l, t.danglesExponent = false) :
    joinedSigns (tokenize (compactSource "\n" (unlines ls)))
      = joinedSigns (tokenize (unlines ls)) := by
  -- one plain line comes out for each run of lines that goes in
  obtain ⟨runs, hholds, hflat⟩ := segments_holds ls
  obtain ⟨hall, hsigns⟩ := narrowed_of_holds hholds (by rw [hflat]; exact hplain)
    (by rw [hflat]; exact hexp)
  rw [compactSource_eq, trimLines_lines_unlines (fun l hl => (hplain l hl).trimmed)
      fun l hl => (hplain l hl).no_break,
    joinTrimmed_newline fun piece hpiece => (hall piece hpiece).trimmed,
    joinedSigns_unlines hall, hsigns, hflat, joinedSigns_unlines hplain]

end GlslMinifier
