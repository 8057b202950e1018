/-
  GlslMinifier.Proofs.Compaction.Fixpoint — minifying what was minified.

  A compacted text is in a normal form: its lines are free of comment marks, no two code
  lines stand next to each other, and narrowing does nothing to a code line
  (`Compacted`).  Each pass leaves such a text alone, so without renaming a second run
  returns the content of the first.

  Main results:
    * `exists_compacted` — compacting a stripped text gives compacted lines
    * `Compacted.strippedSource_eq`, `Compacted.compactSource_eq` — no pass changes them
    * `minify_unrenamed_fixpoint` — a second run changes nothing
-/
import GlslMinifier.Proofs.Compaction.Directives
import GlslMinifier.Proofs.Compaction.Settled
import Mathlib.Data.List.Chain

namespace GlslMinifier

/-! ## §1. Compacted lines. -/

/-- No comment begins in the text. -/
structure NoMark (text : String) : Prop where
  line : ¬ ['/', '/'] <:+: text.toList
  block : ¬ ['/', '*'] <:+: text.toList

/-- A plain line without comment marks that narrowing leaves as it is. -/
structure CompactLine (l : String) : Prop extends PlainLine l where
  no_mark : NoMark l
  settled : LineKind.ofLine l = .code → Settled none (tokenize l)

/-- Of two lines in a row, one is for the preprocessor. -/
def CodeApart (marks : List Bool) : Prop := marks.IsChain fun a b => a = true ∨ b = true

/-- The lines of a compacted text. -/
structure Compacted (ls : List String) : Prop where
  line : ∀ l ∈ ls, CompactLine l
  apart : CodeApart (ls.map isDirectiveLine)

theorem NoMark.of_infix {l m : String} (h : NoMark m) (hpart : l.toList <:+: m.toList) :
    NoMark l :=
  ⟨fun hmark => h.line (hmark.trans hpart), fun hmark => h.block (hmark.trans hpart)⟩

/-- A mark would stand on one line. -/
theorem noMark_unlines {ls : List String} (h : ∀ l ∈ ls, NoMark l) : NoMark (unlines ls) where
  line hmark := by
    obtain ⟨l, hl, hpart⟩ := exists_line_of_infix (by decide) (by decide) hmark
    exact (h l hl).line hpart
  block hmark := by
    obtain ⟨l, hl, hpart⟩ := exists_line_of_infix (by decide) (by decide) hmark
    exact (h l hl).block hpart

/-! ## §2. What comes out is compacted. -/

/-- A code line without comments spells no comment mark. -/
theorem CodeLine.noMark {l : String} (h : CodeLine l) : NoMark l := by
  have hmark := fun d => (cut_tokenize l).spells_no_mark
    (h.cut.kind_ne_directive h.kind_ne_newline) h.no_comment (d := d)
  rw [spell_tokenize] at hmark
  exact ⟨hmark '/' (.inl rfl), hmark '*' (.inr rfl)⟩

/-- What comes out of one segment. -/
theorem Segment.Holds.compactLine {s : Segment} {run : List String} (h : s.Holds run)
    (hplain : ∀ l ∈ run, PlainLine l) (hmark : ∀ l ∈ run, NoMark l) :
    CompactLine s.narrowed := by
  obtain ⟨kind, text⟩ := s
  cases kind with
  | directive =>
    obtain ⟨rfl, hline⟩ := h
    refine ⟨hplain text List.mem_cons_self, hmark text List.mem_cons_self, fun hcode => ?_⟩
    exact absurd (hline.symm.trans hcode) LineKind.noConfusion
  | code =>
    obtain ⟨hne, hcode, rfl⟩ := h
    obtain ⟨l, hl, hjoin, -, -⟩ :=
      exists_codeLine_join hne fun l hl => ⟨hplain l hl, hcode l hl⟩
    obtain ⟨hnarrowed, hsettled⟩ := hl.settled_narrowed
    show CompactLine (collapseSpaces _)
    rw [hjoin, hl.collapseSpaces_append_blank]
    exact ⟨hnarrowed.toPlainLine, hnarrowed.noMark, fun _ => hsettled⟩

/-- Code lines in a row are one segment. -/
theorem codeApart_segments (ls : List String) : CodeApart ((segments ls).map (·.isDirective)) := by
  unfold CodeApart
  induction ls with
  | nil => exact .nil
  | cons line ls ih =>
    rcases segments_cons_cases line ls with
      ⟨hmark, hsegs⟩ | ⟨hmark, ⟨run, later, hlater, hsegs⟩ | ⟨hnone, hsegs⟩⟩
    · rw [hsegs, List.map_cons, List.isChain_cons]
      exact ⟨fun _ _ => .inl rfl, ih⟩
    · -- the first segment grows
      rw [hlater] at ih
      rw [hsegs]
      exact ih
    · rw [hsegs, List.map_cons, List.isChain_cons]
      refine ⟨fun mark hmark => .inr ?_, ih⟩
      rw [List.head?_map] at hmark
      cases hhead : (segments ls).head? with
      | none => simp [hhead] at hmark
      | some s =>
        rw [hhead] at hnone hmark
        obtain rfl : s.isDirective = mark := by simpa using hmark
        simpa using hnone

/-- **Compacting a stripped text gives compacted lines**, if no block comment is left in
    it. -/
theorem exists_compacted {ls : List String} (hplain : ∀ l ∈ ls, PlainLine l)
    (hmark : ∀ l ∈ ls, NoMark l) :
    ∃ out, compactSource "\n" (unlines ls) = unlines out ∧ Compacted out := by
  obtain ⟨runs, hholds, hflat⟩ := segments_holds ls
  have hruns : ∀ s ∈ segments ls, ∃ run, s.Holds run ∧ ∀ l ∈ run, l ∈ ls := by
    refine forall_of_forall₂ hholds.flip (p := fun run => ∀ l ∈ run, l ∈ ls)
      (fun run s hs hrun => ⟨run, hs, hrun⟩) fun run hrun l hl => ?_
    rw [← hflat]
    exact List.mem_flatten_of_mem hrun hl
  have hlines : ∀ piece ∈ (segments ls).map Segment.narrowed, CompactLine piece := by
    intro piece hpiece
    obtain ⟨s, hs, rfl⟩ := List.mem_map.1 hpiece
    obtain ⟨run, hrun, hmem⟩ := hruns s hs
    exact hrun.compactLine (fun l hl => hplain l (hmem l hl)) fun l hl => hmark l (hmem l hl)
  have hmarks : ((segments ls).map Segment.narrowed).map isDirectiveLine
      = (segments ls).map (·.isDirective) := by
    rw [List.map_map]
    refine List.map_congr_left fun s hs => ?_
    obtain ⟨run, hrun, hmem⟩ := hruns s hs
    exact (hrun.shows (fun l hl => (hplain l (hmem l hl)).trimmed)
      fun l hl => (hplain l (hmem l hl)).no_break).mark
  refine ⟨(segments ls).map Segment.narrowed, ?_, hlines, ?_⟩
  · rw [compactSource_eq, trimLines_lines_unlines (fun l hl => (hplain l hl).trimmed)
      fun l hl => (hplain l hl).no_break,
      joinTrimmed_newline fun piece hpiece => (hlines piece hpiece).trimmed]
  · rw [hmarks]
    exact codeApart_segments ls

/-! ## §3. No pass changes compacted lines. -/

/-- The segment of a line that no other joins. -/
def segmentOfLine (l : String) : Segment :=
  if isDirectiveLine l then ⟨.directive, l⟩ else ⟨.code, l ++ " "⟩

/-- Where code lines stand apart, there is one segment for each line. -/
theorem segments_of_codeApart {ls : List String} (h : CodeApart (ls.map isDirectiveLine)) :
    segments ls = ls.map segmentOfLine := by
  induction ls with
  | nil => rfl
  | cons line ls ih =>
    unfold CodeApart at h ih
    rw [List.map_cons, List.isChain_cons] at h
    obtain ⟨hnext, hrest⟩ := h
    have hlater := ih hrest
    unfold segmentOfLine at hlater ⊢
    rcases segments_cons_cases line ls with
      ⟨hmark, hsegs⟩ | ⟨hmark, ⟨run, later, hrun, -⟩ | ⟨-, hsegs⟩⟩
    · rw [hsegs, hlater, List.map_cons, if_pos hmark]
    · -- a code line that comes next would have to be a directive
      cases ls with
      | nil => simp [segments] at hrun
      | cons next ls =>
        have hdirective := (hnext (isDirectiveLine next) rfl).resolve_left (by simp [hmark])
        rw [hlater, List.map_cons, if_pos hdirective] at hrun
        simp at hrun
    · rw [hsegs, hlater, List.map_cons, if_neg (by simp [hmark])]

/-- A compacted line comes out of its segment as it was. -/
theorem CompactLine.narrowed_segmentOfLine {l : String} (h : CompactLine l) :
    (segmentOfLine l).narrowed = l := by
  unfold segmentOfLine
  by_cases hmark : isDirectiveLine l = true
  · rw [if_pos hmark]
    rfl
  · have hcode : LineKind.ofLine l = .code := by
      rw [isDirectiveLine_iff] at hmark
      cases hkind : LineKind.ofLine l with
      | directive => exact absurd hkind hmark
      | code => rfl
    have hline : CodeLine l := ⟨h.toPlainLine, hcode⟩
    rw [if_neg hmark]
    exact hline.collapseSpaces_of_settled (h.settled hcode)

namespace Compacted

variable {ls : List String} (h : Compacted ls)
include h

theorem trimLines_lines_unlines : trimLines (lines (unlines ls)) = ls :=
  GlslMinifier.trimLines_lines_unlines (fun l hl => (h.line l hl).trimmed)
    fun l hl => (h.line l hl).no_break

/-- Stripping leaves compacted lines alone. -/
theorem strippedSource_eq : strippedSource (unlines ls) = unlines ls := by
  have hmark := noMark_unlines fun l hl => (h.line l hl).no_mark
  rw [strippedSource, stripComments_eq_self hmark.line hmark.block, h.trimLines_lines_unlines]

/-- So does compacting them again. -/
theorem compactSource_eq : compactSource "\n" (unlines ls) = unlines ls := by
  rw [GlslMinifier.compactSource_eq, h.trimLines_lines_unlines, segments_of_codeApart h.apart,
    List.map_map]
  have hsame : ls.map (Segment.narrowed ∘ segmentOfLine) = ls.map id :=
    List.map_congr_left fun l hl => (h.line l hl).narrowed_segmentOfLine
  rw [hsame, List.map_id, joinTrimmed_newline fun l hl => (h.line l hl).trimmed]

end Compacted

/-! ## §4. All passes together. -/

/-- The lines of a stripped text without block comments are plain and without marks. -/
theorem plainLine_and_noMark {text : String} (h : ¬ ['/', '*'] <:+: (stripComments text).toList) :
    ∀ l ∈ trimLines (lines (stripComments text)), PlainLine l ∧ NoMark l := by
  have hstripped : NoMark (stripComments text) := ⟨not_lineMark_infix_stripComments text, h⟩
  intro l hl
  obtain ⟨htrimmed, m, hm, hpart⟩ := mem_trimLines hl
  have hmark : NoMark l := hstripped.of_infix (hpart.trans (infix_of_mem_lines hm))
  exact ⟨⟨htrimmed, not_newline_mem_of_mem_trimLines hl, kind_ne_comment hmark.line hmark.block⟩,
    hmark⟩

/-- A run without renaming compacts the stripped source. -/
theorem minify_unrenamed {options : Options} (plugins : List Filter) (text : String)
    (hnames : ∀ name ∈ options.preserveNames, isIdentifier name = true)
    (hrename : options.rename = some false) :
    minify options plugins text
      = .ok ⟨compactSource options.separator (strippedSource text), []⟩ := by
  refine minify_of_not_renames plugins text hnames ?_
  unfold Options.renames
  rw [hrename]
  rfl

/-- **Without renaming, a second run changes nothing**: it returns the content of the first,
    and neither run lists an alias. -/
theorem minify_unrenamed_fixpoint (options : Options) (plugins : List Filter) (text : String)
    (hnames : ∀ name ∈ options.preserveNames, isIdentifier name = true)
    (hrename : options.rename = some false) (hlines : options.escapeNewlines = some false)
    (hblock : ¬ ['/', '*'] <:+: (stripComments text).toList) :
    ∃ content, minify options plugins text = .ok ⟨content, []⟩
      ∧ minify options plugins content = .ok ⟨content, []⟩ := by
  have hseparator := separator_of_unescaped hlines
  have hstripped := plainLine_and_noMark hblock
  obtain ⟨out, hout, hcompacted⟩ := exists_compacted (fun l hl => (hstripped l hl).1)
    fun l hl => (hstripped l hl).2
  have hfirst : minify options plugins text = .ok ⟨unlines out, []⟩ := by
    rw [minify_unrenamed plugins text hnames hrename, hseparator, strippedSource, hout]
  have hsecond : minify options plugins (unlines out) = .ok ⟨unlines out, []⟩ := by
    rw [minify_unrenamed plugins _ hnames hrename, hseparator, hcompacted.strippedSource_eq,
      hcompacted.compactSource_eq]
  exact ⟨unlines out, hfirst, hsecond⟩

/-- A number that takes in a sign on the way, signs and slashes that have to stay apart, and
    a directive. -/
theorem minify_unrenamed_fixpoint_joined_number :
    ∃ content, minify ⟨some false, none, ["keep"], some false⟩ []
        "x = 1e - 0x1e + keep; // sum\n#define N 1 /* one */ + 2\n y = x + +2 /\n / z;"
          = .ok ⟨content, []⟩
      ∧ minify ⟨some false, none, ["keep"], some false⟩ [] content = .ok ⟨content, []⟩ :=
  minify_unrenamed_fixpoint ⟨some false, none, ["keep"], some false⟩ []
    "x = 1e - 0x1e + keep; // sum\n#define N 1 /* one */ + 2\n y = x + +2 /\n / z;"
    (by decide) rfl rfl (by decide +kernel)

end GlslMinifier
