/-
  GlslMinifier.Proofs.GapRuns — what narrowing leaves of a run of gaps.

  Line breaks are tokens of their own, so white space between two tokens may be a run of
  several gaps.  Narrowing looks at each gap of a run on its own, and so at gaps inside the
  run as neighbours: they are not tight and fuse with nothing.  A run of one gap is dropped
  or becomes one space, as its neighbours ask.  Of a longer run every gap inside it leaves
  a space; the gaps at its ends leave one where the token beside them is not tight, and
  nothing keeps tokens apart that would fuse over the run.

  Main results:
    * `fuses_gap`, `gap_fuses` — gaps fuse with nothing
    * `join_narrow_run` — what is left of one run
    * `collapseSpaces_replaces_runs` — narrowing replaces every run, and keeps the other
      tokens
    * `collapseSpaces_joins_minus_signs` — two signs that a longer run does not keep apart
-/
import GlslMinifier.Proofs.PlainLine

namespace GlslMinifier

/-! ## §1. Replacing runs of gaps. -/

/-- The tokens one after the other, each maximal run of gaps replaced: `between` is asked
    with the token before the run, the token behind it and the number of its gaps.
    `left?` is the token before the list. -/
def replaceRuns (between : Option Token → Option Token → Nat → String) (left? : Option Token) :
    List Token → String
  | [] => ""
  | t :: ts =>
    if t.isGap then
      let behind := ts.dropWhile (·.isGap)
      between left? behind.head? ((ts.takeWhile (·.isGap)).length + 1)
        ++ replaceRuns between (some t) behind
    else t.text ++ replaceRuns between (some t) ts
termination_by ts => ts.length
decreasing_by
  · have := (List.dropWhile_suffix (l := ts) (·.isGap)).length_le
    simp only [List.length_cons]
    omega
  · simp

/-- What is left of the gap at an end of a longer run, next to `t?`. -/
def spaceBeside (t? : Option Token) : String := if t?.all (·.isTight) then "" else " "

/-- As many spaces as asked for. -/
def spaces (count : Nat) : String := String.ofList (List.replicate count ' ')

/-- What is left of a run of `count` gaps between two tokens. -/
def runBetween (left? right? : Option Token) : (count : Nat) → String
  | 0 => ""
  | 1 => gapBetween left? right?
  | count + 2 => spaceBeside left? ++ spaces count ++ spaceBeside right?

/-! ## §2. Gaps as neighbours. -/

theorem Token.fuses_marks {t u : Token} (h : t.fuses u = true) :
    (∃ c, t.last? = some c ∧ isWhiteSpace c = false)
      ∧ ∃ d, u.first? = some d ∧ isWhiteSpace d = false := by
  unfold fuses at h
  split at h
  next hlast hfirst => exact ⟨⟨'+', hlast, by decide⟩, '+', hfirst, by decide⟩
  next hlast hfirst => exact ⟨⟨'-', hlast, by decide⟩, '-', hfirst, by decide⟩
  next hlast hfirst => exact ⟨⟨'/', hlast, by decide⟩, '/', hfirst, by decide⟩
  next hlast hfirst => exact ⟨⟨'/', hlast, by decide⟩, '*', hfirst, by decide⟩
  next => exact absurd h (by decide)

variable {g : Token} {start : Bool}

/-- Nothing fuses with a gap behind it. -/
theorem fuses_gap (t : Token) (hshape : g.WellShaped start) (hgap : g.isGap = true) :
    t.fuses g = false := by
  rw [← Bool.not_eq_true]
  intro hfuses
  obtain ⟨-, d, hfirst, hwhite⟩ := Token.fuses_marks hfuses
  rw [hshape.isGap_eq_false (List.mem_of_head? hfirst) hwhite] at hgap
  exact absurd hgap (by decide)

/-- A gap fuses with nothing behind it. -/
theorem gap_fuses (t : Token) (hshape : g.WellShaped start) (hgap : g.isGap = true) :
    g.fuses t = false := by
  rw [← Bool.not_eq_true]
  intro hfuses
  obtain ⟨⟨c, hlast, hwhite⟩, -⟩ := Token.fuses_marks hfuses
  rw [hshape.isGap_eq_false (List.mem_of_getLast? hlast) hwhite] at hgap
  exact absurd hgap (by decide)

theorem isTight_of_isGap (hgap : g.isGap = true) : g.isTight = false := by
  rcases isGap_iff.1 hgap with hkind | hkind
  · simp [Token.isTight, hkind]
  · simp [Token.isTight, hkind]

/-- The first gap of a longer run is judged by the token before it. -/
theorem gapBetween_gap (left? : Option Token) (hshape : g.WellShaped start)
    (hgap : g.isGap = true) : gapBetween left? (some g) = spaceBeside left? := by
  cases left? with
  | none => rfl
  | some left =>
    simp [gapBetween, spaceBeside, isTight_of_isGap hgap, fuses_gap left hshape hgap]

/-- The last gap of a longer run is judged by the token behind it. -/
theorem gap_gapBetween (right? : Option Token) (hshape : g.WellShaped start)
    (hgap : g.isGap = true) : gapBetween (some g) right? = spaceBeside right? := by
  cases right? with
  | none => rfl
  | some right =>
    simp [gapBetween, spaceBeside, isTight_of_isGap hgap, gap_fuses right hshape hgap]

/-- A gap between gaps leaves a space. -/
theorem spaceBeside_gap (hgap : g.isGap = true) : spaceBeside (some g) = " " := by
  simp [spaceBeside, isTight_of_isGap hgap]

/-! ## §3. One run. -/

theorem spaces_succ (count : Nat) : " " ++ spaces count = spaces (count + 1) := by
  apply String.toList_injective
  simp [spaces, List.replicate_succ]

/-- A gap of a text that was lexed. -/
def Token.IsTextGap (t : Token) : Prop := t.isGap = true ∧ ∃ start, t.WellShaped start

/-- What stands before a token that is no gap makes no difference to it. -/
theorem narrow_of_head {ts : List Token} (h : ts.head?.any (·.isGap) = false)
    (left? left?' : Option Token) : narrow left? ts = narrow left?' ts := by
  cases ts with
  | nil => rfl
  | cons t ts =>
    have ht : t.isGap = false := h
    rw [narrow, narrow, ht]
    rfl

theorem join_narrow_gap {g : Token} (hgap : g.isGap = true) (left? : Option Token)
    (ts : List Token) :
    String.join (narrow left? (g :: ts))
      = gapBetween left? ts.head? ++ String.join (narrow (some g) ts) := by
  rw [narrow, if_pos hgap, String.join_cons]

variable {after : List Token}

/-- Behind a gap, a run leaves one space for each of its gaps but the last. -/
theorem join_narrow_behind_gap {left g : Token} {run : List Token} (hleft : left.IsTextGap)
    (hrun : ∀ t ∈ g :: run, t.IsTextGap) (hafter : after.head?.any (·.isGap) = false) :
    String.join (narrow (some left) (g :: (run ++ after)))
      = spaces run.length ++ spaceBeside after.head? ++ String.join (narrow none after) := by
  -- along the run: each gap finds a gap before it
  induction run generalizing left g with
  | nil =>
    obtain ⟨hgap, start, hshape⟩ := hleft
    rw [List.nil_append, join_narrow_gap (hrun g List.mem_cons_self).1,
      gap_gapBetween _ hshape hgap, narrow_of_head hafter (some g) none]
    rfl
  | cons h run ih =>
    have hg := hrun g List.mem_cons_self
    obtain ⟨hgap, start, hshape⟩ := hrun h (by simp)
    have hrest := ih hg fun t ht => hrun t (List.mem_cons_of_mem g ht)
    rw [List.cons_append, join_narrow_gap hg.1, hrest, List.head?_cons,
      gapBetween_gap _ hshape hgap, spaceBeside_gap hleft.1, ← String.append_assoc,
      ← String.append_assoc, spaces_succ, List.length_cons]

/-- **What is left of a run**, by the number of its gaps. -/
theorem join_narrow_run (left? : Option Token) {g : Token} {run : List Token}
    (hrun : ∀ t ∈ g :: run, t.IsTextGap) (hafter : after.head?.any (·.isGap) = false) :
    String.join (narrow left? (g :: (run ++ after)))
      = runBetween left? after.head? (run.length + 1) ++ String.join (narrow none after) := by
  have hg := hrun g List.mem_cons_self
  cases run with
  | nil =>
    rw [List.nil_append, join_narrow_gap hg.1, narrow_of_head hafter (some g) none]
    rfl
  | cons h run =>
    obtain ⟨hgap, start, hshape⟩ := hrun h (by simp)
    have hrest := join_narrow_behind_gap hg (fun t ht => hrun t (List.mem_cons_of_mem g ht)) hafter
    rw [List.cons_append, join_narrow_gap hg.1, hrest, List.head?_cons,
      gapBetween_gap _ hshape hgap, ← String.append_assoc, ← String.append_assoc]
    rfl

/-! ## §4. All runs. -/

variable {between between' : Option Token → Option Token → Nat → String}

theorem head?_dropWhile_isGap (ts : List Token) :
    (ts.dropWhile (·.isGap)).head?.any (·.isGap) = false := by
  have hhead := List.head?_dropWhile_not (·.isGap) ts
  cases hd : (ts.dropWhile (·.isGap)).head? with
  | none => rfl
  | some t => simpa [hd] using hhead

/-- Narrowing a list of tokens replaces its runs. -/
theorem join_narrow_eq (left? : Option Token) {ts : List Token}
    (hshape : ∀ t ∈ ts, ∃ start, t.WellShaped start) :
    String.join (narrow left? ts) = replaceRuns runBetween left? ts := by
  fun_induction replaceRuns runBetween left? ts with
  | case1 => rfl
  | case2 left? t ts hgap behind ih =>
    -- the run that begins here, and the tokens behind it
    have hrun : ∀ g ∈ t :: ts.takeWhile (·.isGap), g.IsTextGap := by
      intro g hg
      rcases List.mem_cons.1 hg with rfl | hg
      · exact ⟨hgap, hshape g List.mem_cons_self⟩
      · have hmem := (List.takeWhile_prefix (l := ts) (·.isGap)).subset hg
        exact ⟨List.all_eq_true.1 List.all_takeWhile g hg,
          hshape g (List.mem_cons_of_mem t hmem)⟩
    have hhead : behind.head?.any (·.isGap) = false := head?_dropWhile_isGap ts
    have hlater : ∀ u ∈ behind, ∃ start, u.WellShaped start := fun u hu =>
      hshape u (List.mem_cons_of_mem t ((List.dropWhile_suffix (l := ts) (·.isGap)).subset hu))
    have hsplit := join_narrow_run left? hrun hhead
    rw [show ts.takeWhile (·.isGap) ++ behind = ts from List.takeWhile_append_dropWhile] at hsplit
    rw [hsplit, narrow_of_head hhead none (some t), ih hlater]
  | case3 left? t ts hgap ih =>
    rw [narrow, if_neg hgap, String.join_cons, ih fun u hu => hshape u (List.mem_cons_of_mem t hu)]

/-- No gap stands next to another one. -/
def SingleGaps (ts : List Token) : Prop :=
  ts.IsChain fun t u => t.isGap = true → u.isGap = false

/-- Where no gap stands next to another one, only the rule for runs of one gap matters. -/
theorem SingleGaps.replaceRuns_congr
    (hone : ∀ left? right?, between left? right? 1 = between' left? right? 1)
    (left? : Option Token) {ts : List Token} (h : SingleGaps ts) :
    replaceRuns between left? ts = replaceRuns between' left? ts := by
  induction ts generalizing left? with
  | nil => rw [replaceRuns, replaceRuns]
  | cons t ts ih =>
    have hlater : SingleGaps ts := h.of_cons
    by_cases hgap : t.isGap = true
    · -- the run ends with its first gap
      have hnext : ts.takeWhile (·.isGap) = [] ∧ ts.dropWhile (·.isGap) = ts := by
        cases ts with
        | nil => exact ⟨rfl, rfl⟩
        | cons u ts =>
          have hu : u.isGap = false := (List.isChain_cons_cons.1 h).1 hgap
          simp [hu]
      rw [replaceRuns, replaceRuns, if_pos hgap, if_pos hgap]
      simp only [hnext, List.length_nil, Nat.zero_add, hone, ih (some t) hlater]
    · rw [replaceRuns, replaceRuns, if_neg hgap, if_neg hgap, ih (some t) hlater]

/-- **Narrowing replaces every run of gaps**, and keeps all other tokens as they are, in
    order.  What it leaves of a run depends on the tokens beside the run and on the number
    of its gaps (`runBetween`); where no gap stands next to another one, the rule is: one
    space if the run has a token on either side, none of which is tight unless the two
    would fuse, and nothing otherwise (`gapBetween`). -/
theorem collapseSpaces_replaces_runs (text : String) :
    collapseSpaces text = replaceRuns runBetween none (tokenize text)
    ∧ (SingleGaps (tokenize text) →
      collapseSpaces text
        = replaceRuns (fun left? right? _ => gapBetween left? right?) none (tokenize text)) := by
  have hruns : collapseSpaces text = replaceRuns runBetween none (tokenize text) :=
    join_narrow_eq none fun t ht => wellShaped_of_mem_tokenize ht
  refine ⟨hruns, fun hsingle => ?_⟩
  rw [hruns]
  apply hsingle.replaceRuns_congr
  intro left? right?
  rfl

/-- Every gap is a run of its own here, a line break among them. -/
theorem collapseSpaces_replaces_runs_single :
    SingleGaps (tokenize "a -\n-b  c") ∧ collapseSpaces "a -\n-b  c" = "a- -b c" := by
  have hsingle : SingleGaps (tokenize "a -\n-b  c") := by
    unfold SingleGaps
    decide +kernel
  refine ⟨hsingle, ?_⟩
  rw [(collapseSpaces_replaces_runs "a -\n-b  c").2 hsingle]
  decide +kernel

/-- Two line breaks keep no space between two signs that would fuse: each of them has a
    line break on one side, which it would not fuse with. -/
theorem collapseSpaces_joins_minus_signs :
    collapseSpaces "a -\n\n-b" = "a--b"
      ∧ replaceRuns (fun left? right? _ => gapBetween left? right?) none
        (tokenize "a -\n\n-b") = "a- -b" := by
  decide +kernel

end GlslMinifier
