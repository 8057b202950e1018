/-
  GlslMinifier.Proofs.Compaction.Directives — preprocessor lines in a minified text.

  Every directive comes out on a line of its own, as it went in; the code lines between
  two directives come out as one line.  This holds for every source: a block comment that
  is left open may swallow blanks, but it neither hides nor makes a directive line.

  Main results:
    * `gaps_segments` — how many segments stand between two directives
    * `Segment.Holds.shows` — what becomes of the first character of a segment
    * `minify_isolates_directives` — all passes together
-/
import GlslMinifier.Proofs.Compaction.Tokens
import GlslMinifier.Proofs.OpenComment
import Mathlib.Data.List.TakeWhile

namespace GlslMinifier

/-! ## §1. Lines between directives. -/

/-- The line is for the preprocessor. -/
def isDirectiveLine (l : String) : Bool := l.toList.head? == some '#'

theorem isDirectiveLine_iff {l : String} :
    isDirectiveLine l = true ↔ LineKind.ofLine l = .directive := by
  unfold isDirectiveLine LineKind.ofLine
  by_cases h : l.toList.head? = some '#'
  · simp [h]
  · simp [h]

/-- What the lines `out` of a compacted text keep of the lines `ls` of its source. -/
structure IsolatesDirectives (ls out : List String) : Prop where
  /-- The directives come out in order and unchanged. -/
  directives : out.filter isDirectiveLine = ls.filter isDirectiveLine
  /-- Before, between and after the directives there is one line, if there was any. -/
  gaps : (out.splitOnP isDirectiveLine).map List.length
    = (ls.splitOnP isDirectiveLine).map fun gap => if gap.isEmpty then 0 else 1
  not_blank : "" ∉ out

/-- A separator begins a new gap. -/
theorem splitOnP_cons_separator {α : Type} {p : α → Bool} {a : α} (h : p a = true)
    (as : List α) : (a :: as).splitOnP p = [] :: as.splitOnP p := by
  rw [List.splitOnP_cons_eq_if_modifyHead, if_pos h]

/-- Anything else belongs to the first gap. -/
theorem exists_splitOnP_cons {α : Type} {p : α → Bool} {a : α} (h : p a = false)
    (as : List α) :
    ∃ gap gaps, as.splitOnP p = gap :: gaps ∧ (a :: as).splitOnP p = (a :: gap) :: gaps := by
  obtain ⟨gap, gaps, hsplit⟩ := List.exists_cons_of_ne_nil (List.splitOnP_ne_nil p as)
  refine ⟨gap, gaps, hsplit, ?_⟩
  rw [List.splitOnP_cons_eq_if_modifyHead, if_neg (by simp [h]), hsplit, List.modifyHead_cons]

/-- How long the gaps are depends on where the separators stand only. -/
theorem map_length_splitOnP {α β : Type} {p : α → Bool} {q : β → Bool} {as : List α}
    {bs : List β} (h : as.map p = bs.map q) :
    (as.splitOnP p).map List.length = (bs.splitOnP q).map List.length := by
  induction as generalizing bs with
  | nil =>
    cases bs with
    | nil => rfl
    | cons b bs => simp at h
  | cons a as ih =>
    cases bs with
    | nil => simp at h
    | cons b bs =>
      rw [List.map_cons, List.map_cons, List.cons.injEq] at h
      obtain ⟨hab, hrest⟩ := h
      have hlater := ih hrest
      by_cases hsep : q b = true
      · rw [splitOnP_cons_separator hsep, splitOnP_cons_separator (hab.trans hsep),
          List.map_cons, List.map_cons, hlater]
        rfl
      · -- the first gap of both grows by one
        rw [Bool.not_eq_true] at hsep
        obtain ⟨gap, gaps, hsplit, hcons⟩ := exists_splitOnP_cons (hab.trans hsep) as
        obtain ⟨gap', gaps', hsplit', hcons'⟩ := exists_splitOnP_cons hsep bs
        rw [hsplit, hsplit', List.map_cons, List.map_cons, List.cons.injEq] at hlater
        rw [hcons, hcons', List.map_cons, List.map_cons, List.length_cons, List.length_cons,
          hlater.1, hlater.2]

/-! ## §2. Segments between directives. -/

def Segment.isDirective (s : Segment) : Bool := s.kind == .directive

/-- What one more line does to the segments: a directive is one of its own, and a code line
    joins the code segment after it or, where there is none, begins one. -/
theorem segments_cons_cases (line : String) (ls : List String) :
    (isDirectiveLine line = true ∧ segments (line :: ls) = ⟨.directive, line⟩ :: segments ls)
      ∨ isDirectiveLine line = false
        ∧ ((∃ run later, segments ls = ⟨.code, run⟩ :: later
            ∧ segments (line :: ls) = ⟨.code, line ++ " " ++ run⟩ :: later)
          ∨ (segments ls).head?.any (!·.isDirective) = false
            ∧ segments (line :: ls) = ⟨.code, line ++ " "⟩ :: segments ls) := by
  have hcode : LineKind.ofLine line = .code → isDirectiveLine line = false := by
    intro hline
    rw [← Bool.not_eq_true, isDirectiveLine_iff, hline]
    exact LineKind.noConfusion
  rw [segments]
  split
  next hline => exact .inl ⟨isDirectiveLine_iff.2 hline, rfl⟩
  next run later hline hlater => exact .inr ⟨hcode hline, .inl ⟨run, later, hlater, rfl⟩⟩
  next hline hnot =>
    refine .inr ⟨hcode hline, .inr ⟨?_, rfl⟩⟩
    cases hsegs : segments ls with
    | nil => rfl
    | cons s later =>
      obtain ⟨kind, run⟩ := s
      cases kind with
      | directive => rfl
      | code => exact absurd hsegs (hnot run later)

/-- The directive segments hold the directive lines. -/
theorem filter_segments (ls : List String) :
    ((segments ls).filter (·.isDirective)).map (·.text) = ls.filter isDirectiveLine := by
  induction ls with
  | nil => rfl
  | cons line ls ih =>
    rcases segments_cons_cases line ls with
      ⟨hmark, hsegs⟩ | ⟨hmark, ⟨run, later, hlater, hsegs⟩ | ⟨-, hsegs⟩⟩
    · rw [hsegs, List.filter_cons_of_pos hmark, ← ih]
      rfl
    · have hline : ¬ isDirectiveLine line = true := by simp [hmark]
      rw [List.filter_cons_of_neg hline, ← ih, hsegs, hlater]
      rfl
    · have hline : ¬ isDirectiveLine line = true := by simp [hmark]
      rw [List.filter_cons_of_neg hline, ← ih, hsegs]
      rfl

/-- **Between directives there is one segment**, if there was any line. -/
theorem gaps_segments (ls : List String) :
    ((segments ls).splitOnP (·.isDirective)).map List.length
      = (ls.splitOnP isDirectiveLine).map fun gap => if gap.isEmpty then 0 else 1 := by
  induction ls with
  | nil => rfl
  | cons line ls ih =>
    rcases segments_cons_cases line ls with ⟨hmark, hsegs⟩ | ⟨hmark, hsegs⟩
    · -- a directive ends the gap on both sides
      rw [hsegs, splitOnP_cons_separator hmark, splitOnP_cons_separator rfl, List.map_cons,
        List.map_cons, ih]
      rfl
    · obtain ⟨gap, gaps, hsplit, hcons⟩ := exists_splitOnP_cons hmark ls
      rw [hsplit, List.map_cons] at ih
      rw [hcons, List.map_cons]
      rcases hsegs with ⟨run, later, hlater, hsegs⟩ | ⟨hnone, hsegs⟩
      · -- the segment of the gap grows, and stays one
        have hsame : ((segments (line :: ls)).splitOnP (·.isDirective)).map List.length
            = ((segments ls).splitOnP (·.isDirective)).map List.length :=
          map_length_splitOnP (by rw [hsegs, hlater]; rfl)
        obtain ⟨first, rest, -, hfirst⟩ := exists_splitOnP_cons
          (p := Segment.isDirective) (a := ⟨.code, run⟩) rfl later
        have hgap : gap.isEmpty = false := by
          by_contra hempty
          rw [hlater, hfirst, List.map_cons, if_pos (by simpa using hempty)] at ih
          exact absurd (List.cons.inj ih).1 (by simp)
        rw [hsame, ih, if_neg (by simp [hgap])]
        rfl
      · -- the gap had no segment, and gets one
        obtain ⟨first, rest, hfirst, hsegSplit⟩ := exists_splitOnP_cons
          (p := Segment.isDirective) (a := ⟨.code, line ++ " "⟩) rfl (segments ls)
        obtain rfl : first = [] := by
          cases hlater : segments ls with
          | nil =>
            rw [hlater, List.splitOnP_nil] at hfirst
            exact (List.cons.inj hfirst).1.symm
          | cons s later =>
            rw [hlater] at hnone hfirst
            rw [splitOnP_cons_separator (by simpa using hnone)] at hfirst
            exact (List.cons.inj hfirst).1.symm
        rw [hfirst, List.map_cons] at ih
        rw [hsegs, hsegSplit, List.map_cons, (List.cons.inj ih).2]
        rfl

/-! ## §3. The line of a segment. -/

/-- The line `o` may come out for the segment `s`: a directive unchanged, and for code a line
    that begins with something other than white space and `#`. -/
structure Segment.Shows (s : Segment) (o : String) : Prop where
  first : ∃ c, o.toList.head? = some c ∧ isWhiteSpace c = false
  no_break : '\n' ∉ o.toList
  mark : isDirectiveLine o = s.isDirective
  directive : s.isDirective = true → o = s.text ∧ IsTrimmed o

theorem toList_trim {o : String} {c : Char} (hc : o.toList.head? = some c)
    (hwhite : isWhiteSpace c = false) : (trim o).toList = trimEnd o.toList := by
  unfold trim
  rw [dropWhile_eq_self hc hwhite, String.toList_ofList]

theorem trimEnd_ne_nil {cs : List Char} {c : Char} (hc : c ∈ cs)
    (hwhite : isWhiteSpace c = false) : trimEnd cs ≠ [] := by
  unfold trimEnd
  rw [Ne, List.reverse_eq_nil_iff, List.dropWhile_eq_nil_iff]
  intro hall
  exact absurd (hall c (by simpa using hc)) (by simp [hwhite])

/-- White space is dropped at the end of the last part only. -/
theorem trimEnd_append {cs ds : List Char} (h : trimEnd ds ≠ []) :
    trimEnd (cs ++ ds) = cs ++ trimEnd ds := by
  unfold trimEnd at h ⊢
  rw [Ne, List.reverse_eq_nil_iff] at h
  rw [List.reverse_append, List.dropWhile_append, if_neg (by simpa using h),
    List.reverse_append, List.reverse_reverse]

/-- Trimming the line of a segment changes nothing that is asked of it. -/
theorem Segment.Shows.trim {s : Segment} {o : String} (h : s.Shows o) :
    s.Shows (trim o) := by
  obtain ⟨c, hc, hwhite⟩ := h.first
  have htoList := toList_trim hc hwhite
  have hhead : (GlslMinifier.trim o).toList.head? = o.toList.head? := by
    rw [htoList]
    exact head?_of_prefix (trimEnd_prefix_self _) (trimEnd_ne_nil (List.mem_of_head? hc) hwhite)
  refine ⟨⟨c, by rw [hhead, hc], hwhite⟩, ?_, ?_, fun hs => ?_⟩
  · intro hbreak
    exact h.no_break ((infix_trim o).subset hbreak)
  · rw [← h.mark]
    unfold isDirectiveLine
    rw [hhead]
  · obtain ⟨htext, htrimmed⟩ := h.directive hs
    rw [trim_eq_self htrimmed]
    exact ⟨htext, htrimmed⟩

/-- Narrowing leaves the first character of a text in its place. -/
theorem head?_collapseSpaces {text : String} {c : Char} (hc : text.toList.head? = some c)
    (hwhite : isWhiteSpace c = false) : (collapseSpaces text).toList.head? = some c := by
  have hcut := cut_tokenize text
  have hhead := hcut.head?_spell
  rw [spell_tokenize, hc] at hhead
  rw [collapseSpaces_eq]
  cases hts : tokenize text with
  | nil => simp [hts, Token.headChar?] at hhead
  | cons t ts =>
    rw [hts] at hcut hhead
    have hfirst : t.text.toList.head? = some c := hhead.symm
    have hgap := hcut.1.isGap_eq_false (List.mem_of_head? hfirst) hwhite
    obtain ⟨d, ds, hd⟩ := hcut.1.exists_cons
    rw [narrowTokens_keep hgap, Token.spell_cons, String.toList_append, hd]
    rw [hd] at hfirst
    exact hfirst

/-- What comes out for the lines of a segment. -/
theorem Segment.Holds.shows {s : Segment} {run : List String} (h : s.Holds run)
    (htrimmed : ∀ l ∈ run, IsTrimmed l) (hbreak : ∀ l ∈ run, '\n' ∉ l.toList) :
    s.Shows s.narrowed := by
  obtain ⟨kind, text⟩ := s
  cases kind with
  | directive =>
    obtain ⟨rfl, hline⟩ := h
    have htext := htrimmed text List.mem_cons_self
    exact ⟨htext.1, hbreak text List.mem_cons_self, isDirectiveLine_iff.2 hline,
      fun _ => ⟨rfl, htext⟩⟩
  | code =>
    obtain ⟨hne, hcode, rfl⟩ := h
    obtain ⟨l, run, rfl⟩ := List.exists_cons_of_ne_nil hne
    -- the segment begins like its first line
    obtain ⟨⟨c, hc, hwhite⟩, -⟩ := htrimmed l List.mem_cons_self
    have hhead : (String.join ((l :: run).map (· ++ " "))).toList.head? = some c := by
      obtain ⟨d, ds, hd⟩ := List.exists_cons_of_ne_nil (htrimmed l List.mem_cons_self).ne_nil
      rw [List.map_cons, String.join_cons, String.toList_append, String.toList_append, hd]
      rw [hd] at hc
      exact hc
    have hfirst := head?_collapseSpaces hhead hwhite
    refine ⟨⟨c, hfirst, hwhite⟩, ?_, ?_, fun hs => nomatch hs⟩
    · show '\n' ∉ (collapseSpaces _).toList
      rw [collapseSpaces_eq]
      apply not_newline_mem_narrowed
      rw [String.toList_join, List.mem_flatMap]
      intro hmem
      obtain ⟨part, hpart, hmem⟩ := hmem
      obtain ⟨m, hm, rfl⟩ := List.mem_map.1 hpart
      rw [String.toList_append, List.mem_append] at hmem
      rcases hmem with hmem | hmem
      · exact hbreak m hm hmem
      · exact absurd hmem (by decide)
    · have hmark := ofLine_eq_code_iff.1 (hcode l List.mem_cons_self)
      rw [hc] at hmark
      show isDirectiveLine (collapseSpaces _) = false
      unfold isDirectiveLine
      rw [hfirst]
      simpa using hmark

/-! ## §4. The lines of a compacted text. -/

/-- Of the lines that come out, the trim at the end touches the last only, whatever stands
    between them. -/
theorem exists_trimEnd_intercalate {segs : List Segment} {pieces : List String}
    (h : List.Forall₂ Segment.Shows segs pieces) :
    ∃ out, List.Forall₂ Segment.Shows segs out ∧ ∀ separator : String,
      trimEnd (separator.intercalate pieces).toList = (separator.intercalate out).toList := by
  induction h with
  | nil => exact ⟨[], .nil, fun _ => by simp [trimEnd]⟩
  | @cons s o segs pieces hs hrest ih =>
    cases hrest with
    | nil =>
      obtain ⟨c, hc, hwhite⟩ := hs.first
      refine ⟨[trim o], .cons hs.trim .nil, fun separator => ?_⟩
      rw [String.intercalate_singleton, String.intercalate_singleton, toList_trim hc hwhite]
    | @cons s' o' segs pieces hs' hrest =>
      obtain ⟨out, hout, htrim⟩ := ih
      cases hout with
      | @cons _ p _ out hp hout =>
        refine ⟨o :: p :: out, .cons hs (.cons hp hout), fun separator => ?_⟩
        -- the later lines do not vanish, for the first of them begins with a mark
        have hne : trimEnd (separator.intercalate (o' :: pieces)).toList ≠ [] := by
          obtain ⟨c, hc, hwhite⟩ := hs'.first
          refine trimEnd_ne_nil (List.mem_of_head? ?_) hwhite
          rw [head?_intercalate separator (List.ne_nil_of_mem (List.mem_of_head? hc)), hc]
        rw [String.intercalate_cons_cons, String.intercalate_cons_cons, String.toList_append,
          trimEnd_append hne, htrim, ← String.toList_append]

theorem joinTrimmed_of_shows {segs : List Segment} {pieces : List String}
    (h : List.Forall₂ Segment.Shows segs pieces) :
    ∃ out, List.Forall₂ Segment.Shows segs out
      ∧ ∀ separator : String, joinTrimmed separator pieces = separator.intercalate out := by
  obtain ⟨out, hout, htrim⟩ := exists_trimEnd_intercalate h
  refine ⟨out, hout, fun separator => ?_⟩
  apply String.toList_injective
  rw [← htrim]
  unfold joinTrimmed
  cases h with
  | nil => simp [trim, trimEnd]
  | @cons s o segs pieces hs _ =>
    obtain ⟨c, hc, hwhite⟩ := hs.first
    have hfirst : (separator.intercalate (o :: pieces)).toList.head? = o.toList.head? :=
      head?_intercalate separator (List.ne_nil_of_mem (List.mem_of_head? hc))
    exact toList_trim (hfirst.trans hc) hwhite

/-- The lines that come out for the segments of some lines isolate the directives. -/
theorem isolatesDirectives_of_shows {ls out : List String}
    (h : List.Forall₂ Segment.Shows (segments ls) out) : IsolatesDirectives ls out := by
  have hmarks : out.map isDirectiveLine = (segments ls).map (·.isDirective) := by
    rw [← List.forall₂_eq_eq_eq, List.forall₂_map_left_iff, List.forall₂_map_right_iff]
    exact h.flip.imp fun _ _ hs => hs.mark
  refine ⟨?_, ?_, fun hempty => ?_⟩
  · rw [← filter_segments ls, ← List.map_id (out.filter isDirectiveLine)]
    exact map_filter_of_forall₂ h (fun s o hs => hs.mark) fun s o hs hmark =>
      (hs.directive hmark).1
  · rw [map_length_splitOnP hmarks, gaps_segments]
  · have hall := forall_of_forall₂ h (p := fun _ => True) (q := fun o => o ≠ "")
      (fun _ _ hs _ heq => by
        obtain ⟨c, hc, -⟩ := hs.first
        simp [heq] at hc) (fun _ _ => trivial)
    exact hall "" hempty rfl

/-- Lines in the same roles are isolated alike. -/
theorem IsolatesDirectives.of_keepsRole {ls ms out : List String}
    (h : List.Forall₂ KeepsRole ls ms) (hout : IsolatesDirectives ms out) :
    IsolatesDirectives ls out := by
  have hmark : ∀ l m, KeepsRole l m → isDirectiveLine m = isDirectiveLine l := by
    intro l m hlm
    rw [Bool.eq_iff_iff, isDirectiveLine_iff, isDirectiveLine_iff, hlm.kind]
  obtain ⟨hdirectives, hgaps, hblank⟩ := hout
  refine ⟨?_, ?_, hblank⟩
  · rw [hdirectives, ← List.map_id (ms.filter isDirectiveLine),
      ← List.map_id (ls.filter isDirectiveLine)]
    exact map_filter_of_forall₂ h hmark fun l m hlm hline =>
      hlm.directive (isDirectiveLine_iff.1 hline)
  · -- the gaps lie between the same places
    have hmarks : ms.map isDirectiveLine = ls.map isDirectiveLine := by
      rw [← List.forall₂_eq_eq_eq, List.forall₂_map_left_iff, List.forall₂_map_right_iff]
      exact h.flip.imp fun m l hlm => hmark l m hlm
    have hlengths := congrArg (List.map fun n => if n = 0 then 0 else 1)
      (map_length_splitOnP hmarks)
    have hempty : (fun gap : List String => if gap.isEmpty then 0 else 1)
        = (fun n => if n = 0 then 0 else 1) ∘ List.length :=
      funext fun gap => by cases gap <;> rfl
    rw [hgaps, hempty, ← List.map_map, ← List.map_map, hlengths]

/-- The lines that come out of the compaction are the same whatever stands between them. -/
theorem exists_pieces_compactSource {ms : List String} (htrimmed : ∀ m ∈ ms, IsTrimmed m)
    (hbreak : ∀ m ∈ ms, '\n' ∉ m.toList) :
    ∃ out, List.Forall₂ Segment.Shows (segments ms) out
      ∧ ∀ separator, compactSource separator (unlines ms) = separator.intercalate out := by
  obtain ⟨runs, hholds, hflat⟩ := segments_holds ms
  have hshown : ∀ s ∈ segments ms, s.Shows s.narrowed :=
    forall_of_forall₂ hholds.flip (p := fun run => ∀ l ∈ run, l ∈ ms)
      (fun run s hs hrun => Segment.Holds.shows hs (fun l hl => htrimmed l (hrun l hl))
        fun l hl => hbreak l (hrun l hl))
      (fun run hrun l hl => hflat ▸ List.mem_flatten_of_mem hrun hl)
  have hpieces : List.Forall₂ Segment.Shows (segments ms)
      ((segments ms).map Segment.narrowed) := by
    rw [List.forall₂_map_right_iff, List.forall₂_same]
    exact hshown
  obtain ⟨out, hshows, hjoin⟩ := joinTrimmed_of_shows hpieces
  refine ⟨out, hshows, fun separator => ?_⟩
  rw [compactSource_eq, trimLines_lines_unlines htrimmed hbreak, hjoin]

/-- Compacting lines that are trimmed isolates the directives among them. -/
theorem exists_lines_compactSource {ms : List String} (htrimmed : ∀ m ∈ ms, IsTrimmed m)
    (hbreak : ∀ m ∈ ms, '\n' ∉ m.toList) :
    ∃ out, compactSource "\n" (unlines ms) = unlines out ∧ (∀ o ∈ out, '\n' ∉ o.toList)
      ∧ (out = [] ↔ ms = []) ∧ IsolatesDirectives ms out := by
  obtain ⟨out, hshows, hout⟩ := exists_pieces_compactSource htrimmed hbreak
  refine ⟨out, hout "\n", ?_, ?_, isolatesDirectives_of_shows hshows⟩
  · exact forall_of_forall₂ hshows (fun _ _ hs _ => hs.no_break) fun _ _ => trivial
  · -- without lines there are no segments, and without segments no lines
    obtain ⟨runs, hholds, hflat⟩ := segments_holds ms
    constructor
    · intro hnil
      rw [hnil, List.forall₂_nil_right_iff] at hshows
      rw [hshows, List.forall₂_nil_left_iff] at hholds
      rw [← hflat, hholds]
      rfl
    · intro hnil
      rw [hnil] at hshows
      exact List.forall₂_nil_left_iff.1 hshows

/-! ## §5. All passes together. -/

/-- **Minifying isolates the directives**: whatever the source and the options, each
    directive line of the stripped source comes out as it was, and before, between and after
    them the code shares one line. -/
theorem minify_isolates_directives (options : Options) (plugins : List Filter) (text : String)
    (hnames : ∀ name ∈ options.preserveNames, isIdentifier name = true)
    (hlines : options.escapeNewlines = some false) :
    ∃ result, minify options plugins text = .ok result
      ∧ (trimLines (lines (stripComments text)) = [] → result.content = "")
      ∧ (trimLines (lines (stripComments text)) ≠ [] →
        IsolatesDirectives (trimLines (lines (stripComments text))) (lines result.content)) := by
  obtain ⟨result, hresult, hspell, hcontent⟩ := exists_minify_eq options plugins text hnames
  refine ⟨result, hresult, ?_⟩
  rw [separator_of_unescaped hlines] at hcontent
  unfold strippedSource at hcontent
  have hopen := stayOpen_stripped text
  have hstripped : ∀ l ∈ trimLines (lines (stripComments text)),
      IsTrimmed l ∧ '\n' ∉ l.toList := fun l hl =>
    ⟨(mem_trimLines hl).1, not_newline_mem_of_mem_trimLines hl⟩
  generalize trimLines (lines (stripComments text)) = ls at *
  -- respelled lines keep their roles, and compacting them isolates the directives
  obtain ⟨ms, hms, hroles⟩ := exists_lines_keeping_role (fun l hl => (hstripped l hl).1)
    (fun l hl => (hstripped l hl).2) hopen (respells_respell hspell (tokenize (unlines ls)))
  obtain ⟨out, hout, hbreak, hnone, hisolates⟩ := exists_lines_compactSource
    (forall_of_forall₂ hroles (fun _ _ h _ => h.trimmed) fun _ _ => trivial)
    (forall_of_forall₂ hroles (fun _ _ h _ => h.no_break) fun _ _ => trivial)
  rw [hms, hout] at hcontent
  have hempty : out = [] ↔ ls = [] := by
    rw [hnone, ← List.length_eq_zero_iff, ← List.length_eq_zero_iff, hroles.length_eq]
  constructor
  · intro hnil
    rw [hcontent, hempty.2 hnil, unlines_nil]
  · intro hne
    rw [hcontent, lines_unlines (fun hnil => hne (hempty.1 hnil)) hbreak]
    exact hisolates.of_keepsRole hroles

/-- A directive between code, and one after a block comment that is never closed: the blank
    at the end of its first line stays. -/
theorem minify_isolates_directives_open_comment :
    ∃ result, minify ⟨none, none, ["keep"], some false⟩ []
        "float total;\n # define X /* y\n total = 1.0; /* open\n#endif\n total" = .ok result
      ∧ IsolatesDirectives ["float total;", "# define X /* y", "total = 1.0; /* open", "#endif",
          "total"] (lines result.content) := by
  have hlines : trimLines (lines (stripComments
      "float total;\n # define X /* y\n total = 1.0; /* open\n#endif\n total"))
      = ["float total;", "# define X /* y", "total = 1.0; /* open", "#endif", "total"] := by
    decide +kernel
  obtain ⟨result, hresult, -, hisolates⟩ := minify_isolates_directives
    ⟨none, none, ["keep"], some false⟩ []
    "float total;\n # define X /* y\n total = 1.0; /* open\n#endif\n total" (by decide) rfl
  rw [hlines] at hisolates
  exact ⟨result, hresult, hisolates (by decide)⟩

end GlslMinifier
