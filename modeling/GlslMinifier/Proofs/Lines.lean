/-
  GlslMinifier.Proofs.Lines — trimmed lines, and texts without comment marks.

  A line counts as trimmed when it begins and ends with something other than white space.
  Such lines go through joining, splitting and trimming unchanged, so a text made of them
  can be taken apart and put together again at will.

  Main results:
    * `trim_eq_self`, `isTrimmed_trim` — trimming yields trimmed lines and keeps them
    * `trimLines_lines_unlines` — a text of trimmed lines has just these lines
    * `joinTrimmed_newline` — trimming does nothing to such a text as a whole
    * `not_lineMark_infix_stripComments` — stripping leaves no `//`
    * `stripComments_eq_self` — texts that stripping leaves alone
-/
import GlslMinifier.Text.Comment
import GlslMinifier.Text.Lines

namespace GlslMinifier

/-! ## §1. Trimming. -/

/-- The line begins and ends with something other than white space. -/
def IsTrimmed (l : String) : Prop :=
  (∃ c, l.toList.head? = some c ∧ isWhiteSpace c = false)
    ∧ ∃ c, l.toList.getLast? = some c ∧ isWhiteSpace c = false

theorem IsTrimmed.ne_nil {l : String} (h : IsTrimmed l) : l.toList ≠ [] := by
  obtain ⟨⟨c, hc, -⟩, -⟩ := h
  intro hnil
  simp [hnil] at hc

theorem IsTrimmed.ne_empty {l : String} (h : IsTrimmed l) : l ≠ "" := by
  intro heq
  subst heq
  exact h.ne_nil rfl

theorem dropWhile_eq_self {p : Char → Bool} {cs : List Char} {c : Char}
    (hc : cs.head? = some c) (hp : p c = false) : cs.dropWhile p = cs := by
  cases cs with
  | nil => rfl
  | cons d ds =>
    obtain rfl : d = c := by simpa using hc
    rw [List.dropWhile_cons, hp]
    rfl

theorem trimEnd_eq_self {cs : List Char} {c : Char} (hc : cs.getLast? = some c)
    (hwhite : isWhiteSpace c = false) : trimEnd cs = cs := by
  rw [trimEnd, dropWhile_eq_self (by rw [List.head?_reverse, hc]) hwhite, List.reverse_reverse]

theorem trim_eq_self {l : String} (h : IsTrimmed l) : trim l = l := by
  obtain ⟨⟨c, hc, hfirst⟩, d, hd, hlast⟩ := h
  rw [trim, dropWhile_eq_self hc hfirst, trimEnd_eq_self hd hlast, String.ofList_toList]

theorem trimEnd_prefix_self (cs : List Char) : trimEnd cs <+: cs := by
  have h := List.dropWhile_suffix (l := cs.reverse) isWhiteSpace
  rwa [← List.reverse_prefix, List.reverse_reverse] at h

theorem infix_trim (l : String) : (trim l).toList <:+: l.toList := by
  unfold trim
  rw [String.toList_ofList]
  exact (trimEnd_prefix_self _).isInfix.trans (List.dropWhile_suffix _).isInfix

theorem head?_of_prefix {cs ds : List Char} (h : cs <+: ds) (hne : cs ≠ []) :
    cs.head? = ds.head? := by
  obtain ⟨tail, rfl⟩ := h
  cases cs with
  | nil => exact absurd rfl hne
  | cons c cs => rfl

/-- What is left after trimming is trimmed. -/
theorem isTrimmed_trim {l : String} (h : trim l ≠ "") : IsTrimmed (trim l) := by
  generalize hmid : l.toList.dropWhile isWhiteSpace = mid
  have htrim : (trim l).toList = trimEnd mid := by rw [trim, hmid, String.toList_ofList]
  have hne : trimEnd mid ≠ [] := by
    rw [← htrim]
    exact fun hnil => h (String.toList_eq_nil_iff.1 hnil)
  constructor
  · -- the first character is where dropping from the front stopped
    rw [htrim, head?_of_prefix (trimEnd_prefix_self mid) hne, ← hmid]
    have hstop := List.head?_dropWhile_not isWhiteSpace l.toList
    cases hhead : (l.toList.dropWhile isWhiteSpace).head? with
    | none =>
      rw [List.head?_eq_none_iff, hmid] at hhead
      rw [hhead] at hne
      exact absurd rfl hne
    | some c => exact ⟨c, rfl, by simpa [hhead] using hstop⟩
  · -- the last one is where dropping from the back stopped
    rw [htrim, trimEnd, List.getLast?_reverse]
    have hstop := List.head?_dropWhile_not isWhiteSpace mid.reverse
    cases hhead : (mid.reverse.dropWhile isWhiteSpace).head? with
    | none =>
      rw [List.head?_eq_none_iff] at hhead
      rw [trimEnd, hhead] at hne
      exact absurd rfl hne
    | some c => exact ⟨c, rfl, by simpa [hhead] using hstop⟩

/-! ## §2. Lines. -/

@[simp] theorem unlines_nil : unlines [] = "" := String.intercalate_nil

@[simp] theorem unlines_singleton (l : String) : unlines [l] = l :=
  String.intercalate_singleton

theorem unlines_cons_cons (l m : String) (ls : List String) :
    unlines (l :: m :: ls) = l ++ "\n" ++ unlines (m :: ls) :=
  String.intercalate_cons_cons

theorem toList_unlines (ls : List String) :
    (unlines ls).toList = ['\n'].intercalate (ls.map String.toList) :=
  String.toList_intercalate

theorem not_mem_of_mem_splitOn {cs piece : List Char} {c : Char} (h : piece ∈ cs.splitOn c) :
    c ∉ piece := by
  induction cs generalizing piece with
  | nil =>
    rw [List.splitOn_nil, List.mem_singleton] at h
    simp [h]
  | cons d ds ih =>
    rw [List.splitOn_cons_eq_if_modifyHead] at h
    obtain ⟨first, later, hsplit⟩ := List.exists_cons_of_ne_nil (List.splitOn_ne_nil c ds)
    rw [hsplit] at h ih
    -- a separator begins a new piece; any other character joins the first piece
    by_cases hd : (d == c) = true
    · rw [if_pos hd] at h
      rcases List.mem_cons.1 h with rfl | h
      · exact List.not_mem_nil
      · exact ih h
    · rw [if_neg hd, List.modifyHead_cons] at h
      rcases List.mem_cons.1 h with rfl | h
      · rw [List.mem_cons, not_or]
        exact ⟨fun heq => hd (by simp [heq]), ih List.mem_cons_self⟩
      · exact ih (List.mem_cons_of_mem _ h)

theorem not_newline_mem_of_mem_lines {text l : String} (h : l ∈ lines text) :
    '\n' ∉ l.toList := by
  obtain ⟨piece, hpiece, rfl⟩ := List.mem_map.1 h
  rw [String.toList_ofList]
  exact not_mem_of_mem_splitOn hpiece

/-- Each line is a part of the text. -/
theorem infix_unlines {ls : List String} {l : String} (h : l ∈ ls) :
    l.toList <:+: (unlines ls).toList := by
  induction ls with
  | nil => simp at h
  | cons first later ih =>
    cases later with
    | nil =>
      obtain rfl : l = first := by simpa using h
      exact ⟨[], [], by simp⟩
    | cons m later =>
      rw [unlines_cons_cons, String.toList_append, String.toList_append]
      rcases List.mem_cons.1 h with rfl | h
      · exact List.infix_append_of_infix_left List.infix_append_left
      · exact List.infix_append_of_infix_right (ih h)

theorem infix_of_mem_lines {text l : String} (h : l ∈ lines text) :
    l.toList <:+: text.toList := by
  have hpart := infix_unlines h
  rwa [unlines_lines] at hpart

/-- A text made of lines has just these lines. -/
theorem lines_unlines {ls : List String} (hne : ls ≠ [])
    (h : ∀ l ∈ ls, '\n' ∉ l.toList) : lines (unlines ls) = ls := by
  have hpieces : ∀ piece ∈ ls.map String.toList, '\n' ∉ piece := by
    intro piece hpiece
    obtain ⟨l, hl, rfl⟩ := List.mem_map.1 hpiece
    exact h l hl
  have hback : String.ofList ∘ String.toList = id := funext fun _ => String.ofList_toList
  rw [lines, toList_unlines, List.splitOn_intercalate '\n' hpieces (by simpa using hne),
    List.map_map, hback, List.map_id]

theorem mem_trimLines {ls : List String} {l : String} (h : l ∈ trimLines ls) :
    IsTrimmed l ∧ ∃ m ∈ ls, l.toList <:+: m.toList := by
  rw [trimLines, List.mem_filter, List.mem_map] at h
  obtain ⟨⟨m, hm, rfl⟩, hne⟩ := h
  exact ⟨isTrimmed_trim (by simpa using hne), m, hm, infix_trim m⟩

theorem not_newline_mem_of_mem_trimLines {text l : String} (h : l ∈ trimLines (lines text)) :
    '\n' ∉ l.toList := by
  obtain ⟨-, m, hm, hpart⟩ := mem_trimLines h
  exact fun hmem => not_newline_mem_of_mem_lines hm (hpart.subset hmem)

theorem trimLines_eq_self {ls : List String} (h : ∀ l ∈ ls, IsTrimmed l) :
    trimLines ls = ls := by
  have hmap : ls.map trim = ls.map id :=
    List.map_congr_left fun l hl => trim_eq_self (h l hl)
  rw [List.map_id] at hmap
  rw [trimLines, hmap, List.filter_eq_self]
  intro l hl
  simpa using (h l hl).ne_empty

/-- A text of trimmed lines has just these lines, also when there are none. -/
theorem trimLines_lines_unlines {ls : List String} (htrimmed : ∀ l ∈ ls, IsTrimmed l)
    (hbreak : ∀ l ∈ ls, '\n' ∉ l.toList) : trimLines (lines (unlines ls)) = ls := by
  by_cases hne : ls = []
  · -- the empty text has one empty line, which is dropped
    subst hne
    decide
  · rw [lines_unlines hne hbreak, trimLines_eq_self htrimmed]

/-- Joined pieces begin like the first of them. -/
theorem head?_intercalate (separator : String) {ls : List String} {l : String}
    (h : l.toList ≠ []) : (separator.intercalate (l :: ls)).toList.head? = l.toList.head? := by
  cases ls with
  | nil => rw [String.intercalate_singleton]
  | cons m ls =>
    obtain ⟨c, cs, hc⟩ := List.exists_cons_of_ne_nil h
    rw [String.intercalate_cons_cons, String.toList_append, String.toList_append, hc]
    rfl

theorem head?_unlines {ls : List String} {l : String} (h : l.toList ≠ []) :
    (unlines (l :: ls)).toList.head? = l.toList.head? :=
  head?_intercalate "\n" h

theorem getLast?_unlines {ls : List String} (h : ∀ l ∈ ls, IsTrimmed l) (hne : ls ≠ []) :
    ∃ c, (unlines ls).toList.getLast? = some c ∧ isWhiteSpace c = false := by
  induction ls with
  | nil => exact absurd rfl hne
  | cons l ls ih =>
    cases ls with
    | nil =>
      rw [unlines_singleton]
      exact (h l List.mem_cons_self).2
    | cons m ls =>
      obtain ⟨c, hc, hwhite⟩ := ih (fun k hk => h k (List.mem_cons_of_mem _ hk)) (by simp)
      refine ⟨c, ?_, hwhite⟩
      rw [unlines_cons_cons, String.toList_append, List.getLast?_append, hc]
      rfl

/-- Trimming does nothing to a text of trimmed lines. -/
theorem joinTrimmed_newline {ls : List String} (h : ∀ l ∈ ls, IsTrimmed l) :
    joinTrimmed "\n" ls = unlines ls := by
  show trim (unlines ls) = unlines ls
  cases ls with
  | nil => decide
  | cons l ls =>
    have hl := h l List.mem_cons_self
    exact trim_eq_self ⟨by rw [head?_unlines hl.ne_nil]; exact hl.1, getLast?_unlines h (by simp)⟩

/-! ## §3. Comment marks. -/

/-- Two characters in a row stand in one of two parts, or where these meet. -/
theorem infix_pair_append {a b : Char} {cs ds : List Char} (h : [a, b] <:+: cs ++ ds) :
    [a, b] <:+: cs ∨ [a, b] <:+: ds ∨ cs.getLast? = some a ∧ ds.head? = some b := by
  rcases List.infix_append_iff.1 h with hfirst | hlater | ⟨l₁, l₂, hsplit, hleft, hright⟩
  · exact .inl hfirst
  · exact .inr (.inl hlater)
  · -- the first part ends with none, one or both of them
    match l₁ with
    | [] =>
      obtain rfl : l₂ = [a, b] := hsplit.symm
      exact .inr (.inl hright.isInfix)
    | [c] =>
      obtain ⟨rfl, rfl⟩ : a = c ∧ [b] = l₂ := by simpa using hsplit
      obtain ⟨before, rfl⟩ := hleft
      obtain ⟨after, rfl⟩ := hright
      exact .inr (.inr ⟨by simp, rfl⟩)
    | c :: d :: rest =>
      obtain ⟨rfl, rfl, rfl, -⟩ : a = c ∧ b = d ∧ rest = [] ∧ l₂ = [] := by simpa using hsplit
      exact .inl hleft.isInfix

/-- Cutting line comments brings nothing but line breaks to the front. -/
theorem head?_cutLineComments {cs : List Char} {c : Char}
    (h : (cutLineComments cs).head? = some c) (hc : c ≠ '\n') : cs.head? = some c := by
  fun_cases cutLineComments cs with
  | case1 cs =>
    -- a cut line is empty from the front
    rw [cutLineComments] at h
    have hstop := List.head?_dropWhile_not (· != '\n') cs
    cases hrest : cs.dropWhile (· != '\n') with
    | nil => simp [hrest, cutLineComments] at h
    | cons d ds =>
      obtain rfl : d = '\n' := by simpa [hrest] using hstop
      rw [hrest, cutLineComments] at h
      · exact absurd (Option.some.inj h).symm hc
      · exact fun _ heq => absurd heq (by decide)
  | case2 d cs hnot =>
    rw [cutLineComments] at h
    · exact h
    · exact hnot
  | case3 => simp [cutLineComments] at h

theorem not_lineMark_infix_cutLineComments (cs : List Char) :
    ¬ ['/', '/'] <:+: cutLineComments cs := by
  fun_induction cutLineComments cs with
  | case1 cs ih => exact ih
  | case2 c cs hnot ih =>
    intro hmark
    rcases List.infix_cons_iff.1 hmark with hfirst | hlater
    · -- a mark at the front would stand at the front of the text before
      rw [List.cons_prefix_cons] at hfirst
      obtain ⟨rfl, tail, htail⟩ := hfirst
      have hhead : cs.head? = some '/' :=
        head?_cutLineComments (by rw [← htail]; rfl) (by decide)
      cases cs with
      | nil => simp at hhead
      | cons d ds =>
        obtain rfl : d = '/' := by simpa using hhead
        exact hnot ds rfl rfl
    · exact ih hlater
  | case3 => simp

/-- Stripping leaves no mark of a line comment. -/
theorem not_lineMark_infix_stripComments (text : String) :
    ¬ ['/', '/'] <:+: (stripComments text).toList := by
  unfold stripComments
  rw [String.toList_ofList]
  exact not_lineMark_infix_cutLineComments _

/-! ## §4. Texts that stripping leaves alone. -/

theorem blankBlockComments_eq_self {cs : List Char} (h : ¬ ['/', '*'] <:+: cs) :
    blankBlockComments cs = cs := by
  fun_induction blankBlockComments cs with
  | case1 cs => exact absurd ⟨[], cs, rfl⟩ h
  | case2 => rfl
  | case3 c cs _ ih => rw [ih fun hmark => h (List.infix_cons hmark)]
  | case4 => rfl

theorem cutLineComments_eq_self {cs : List Char} (h : ¬ ['/', '/'] <:+: cs) :
    cutLineComments cs = cs := by
  fun_induction cutLineComments cs with
  | case1 cs => exact absurd ⟨[], cs, rfl⟩ h
  | case2 c cs _ ih => rw [ih fun hmark => h (List.infix_cons hmark)]
  | case3 => rfl

/-- Stripping leaves a text without comment marks as it is. -/
theorem stripComments_eq_self {text : String} (hline : ¬ ['/', '/'] <:+: text.toList)
    (hblock : ¬ ['/', '*'] <:+: text.toList) : stripComments text = text := by
  rw [stripComments, blankBlockComments_eq_self hblock, cutLineComments_eq_self hline,
    String.ofList_toList]

end GlslMinifier
