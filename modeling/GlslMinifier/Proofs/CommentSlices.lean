/-
  GlslMinifier.Proofs.CommentSlices — removing comments by byte positions never fails.

  A mark is found where the characters before it hold no other one, so its position is the
  number of their bytes, and the parts on both sides of it are texts.  This holds for any
  text, whatever stands around its marks.

  Main results:
    * `offsetOf?_eq_some` — the position of a mark stands between characters
    * `sliceBlockComments?_eq`, `sliceLine?_eq` — each search finds what the characters say
    * `sliceComments?_eq` — comments are removed without a failure
-/
import GlslMinifier.Proofs.ByteScan
import GlslMinifier.Proofs.Stripping
import GlslMinifier.Text.CommentSlices

namespace GlslMinifier

/-! ## §1. Positions of marks. -/

theorem PairFree.cons {a b c : Char} {cs ds : List Char} (h : PairFree a b cs ds)
    (hfirst : ¬ [a, b] <+: c :: (cs ++ ds)) : PairFree a b (c :: cs) ds where
  inside := by
    rw [List.infix_cons_iff, not_or]
    refine ⟨fun hmark => hfirst ?_, h.inside⟩
    exact hmark.trans (List.prefix_append (c :: cs) ds)
  meeting := by
    intro hlast hhead
    cases cs with
    | nil =>
      obtain rfl : c = a := by simpa using hlast
      obtain ⟨rest, rfl⟩ := List.head?_eq_some_iff.1 hhead
      exact hfirst ⟨rest, rfl⟩
    | cons d cs => exact h.meeting (by simpa using hlast) hhead

theorem offsetOf?_eq_none_iff {a b : Char} {cs : List Char} :
    offsetOf? [a, b] cs = none ↔ ¬ [a, b] <:+: cs := by
  induction cs with
  | nil => simp [offsetOf?]
  | cons c cs ih =>
    rw [offsetOf?, List.infix_cons_iff, not_or, ← ih, ← List.isPrefixOf_iff_prefix]
    by_cases hmark : [a, b].isPrefixOf (c :: cs) = true
    · simp [hmark]
    · simp [hmark]

/-- A mark that is found has no other one before it, and its position counts the bytes up
    to it. -/
theorem offsetOf?_eq_some {a b : Char} {cs : List Char} {offset : Nat}
    (h : offsetOf? [a, b] cs = some offset) :
    ∃ before after, cs = before ++ a :: b :: after
      ∧ offset = (String.ofList before).utf8ByteSize ∧ PairFree a b before (a :: b :: after) := by
  induction cs generalizing offset with
  | nil => simp [offsetOf?] at h
  | cons c cs ih =>
    rw [offsetOf?] at h
    by_cases hmark : [a, b].isPrefixOf (c :: cs) = true
    · -- the mark stands here
      rw [if_pos hmark] at h
      obtain rfl := Option.some.inj h
      obtain ⟨after, hafter⟩ := List.isPrefixOf_iff_prefix.1 hmark
      exact ⟨[], after, hafter.symm, rfl, by simp, by simp⟩
    · rw [if_neg hmark] at h
      obtain ⟨later, hlater, rfl⟩ := Option.map_eq_some_iff.1 h
      obtain ⟨before, after, rfl, rfl, hfree⟩ := ih hlater
      refine ⟨c :: before, after, rfl, ?_, hfree.cons fun hfirst => hmark ?_⟩
      · simp [utf8ByteSize_ofList]
      · exact List.isPrefixOf_iff_prefix.2 hfirst

/-- A text around the first mark in it. -/
theorem exists_split_of_offsetOf? {a b : Char} {text : String} {offset : Nat}
    (h : offsetOf? [a, b] text.toList = some offset) :
    ∃ before after : String, text = before ++ String.ofList [a, b] ++ after
      ∧ offset = before.utf8ByteSize
      ∧ PairFree a b before.toList (a :: b :: after.toList) := by
  obtain ⟨before, after, htext, hoffset, hfree⟩ := offsetOf?_eq_some h
  refine ⟨String.ofList before, String.ofList after, ?_, hoffset, ?_⟩
  · apply String.toList_injective
    simp [htext]
  · simpa using hfree

/-- What stands behind a mark. -/
theorem slice?_behind (before mark after : String) :
    slice? (before ++ mark ++ after) (before.utf8ByteSize + mark.utf8ByteSize)
      (before ++ mark ++ after).utf8ByteSize = some after := by
  rw [← String.utf8ByteSize_append]
  exact slice?_append_end (before ++ mark) after

/-- What stands before it. -/
theorem slice?_before (before after : String) :
    slice? (before ++ after) 0 before.utf8ByteSize = some before := by
  have h := slice?_append "" before after
  rwa [String.empty_append, String.utf8ByteSize_empty, Nat.zero_add] at h

/-! ## §2. Block comments. -/

/-- The first closing mark is where the comment ends. -/
theorem PairFree.splitClose?_append {cs ds : List Char}
    (h : PairFree '*' '/' cs ('*' :: '/' :: ds)) :
    splitClose? (cs ++ '*' :: '/' :: ds) = some (cs ++ ['*', '/'], ds) := by
  induction cs with
  | nil => rfl
  | cons c cs ih =>
    rw [List.cons_append, splitClose?]
    · rw [ih h.tail]
      rfl
    · exact h.not_at_head

/-- A block comment between two texts is blanked, and the search goes on behind it. -/
theorem blankBlockComments_comment {before inside rest : List Char}
    (hbefore : PairFree '/' '*' before ('/' :: '*' :: (inside ++ '*' :: '/' :: rest)))
    (hinside : PairFree '*' '/' inside ('*' :: '/' :: rest)) :
    blankBlockComments (before ++ '/' :: '*' :: (inside ++ '*' :: '/' :: rest))
      = before ++ ' ' :: blankBlockComments rest := by
  rw [hbefore.blankBlockComments_append, blankBlockComments]
  split
  next body after hclose =>
    rw [hinside.splitClose?_append] at hclose
    obtain ⟨-, rfl⟩ := Prod.mk.inj (Option.some.inj hclose)
    rfl
  next hopen => simp [hinside.splitClose?_append] at hopen

/-- A block comment without an end stays, with all that comes after it. -/
theorem blankBlockComments_open {before rest : List Char}
    (hbefore : PairFree '/' '*' before ('/' :: '*' :: rest))
    (hrest : ¬ ['*', '/'] <:+: rest) :
    blankBlockComments (before ++ '/' :: '*' :: rest) = before ++ '/' :: '*' :: rest := by
  rw [hbefore.blankBlockComments_append, blankBlockComments]
  split
  next body after hclose => simp [splitClose?_eq_none_iff.2 hrest] at hclose
  next => rfl

/-- Around the first comment of a text, every part that the search takes out is there. -/
theorem sliceBlockComments?_comment {before inside after : String}
    (hopening : offsetOf? ['/', '*'] (before ++ String.ofList ['/', '*']
      ++ (inside ++ String.ofList ['*', '/'] ++ after)).toList = some before.utf8ByteSize)
    (hclosing : offsetOf? ['*', '/'] (inside ++ String.ofList ['*', '/'] ++ after).toList
      = some inside.utf8ByteSize) :
    sliceBlockComments? (before ++ String.ofList ['/', '*']
        ++ (inside ++ String.ofList ['*', '/'] ++ after))
      = (sliceBlockComments? after).map fun tail => before ++ (" " ++ tail) := by
  have hinside := slice?_behind before (String.ofList ['/', '*'])
    (inside ++ String.ofList ['*', '/'] ++ after)
  have hfront := slice?_before before (String.ofList ['/', '*']
    ++ (inside ++ String.ofList ['*', '/'] ++ after))
  rw [← String.append_assoc] at hfront
  have hafter : slice? (before ++ String.ofList ['/', '*']
        ++ (inside ++ String.ofList ['*', '/'] ++ after))
      (before.utf8ByteSize + 2 + inside.utf8ByteSize + 2)
      (before ++ String.ofList ['/', '*']
        ++ (inside ++ String.ofList ['*', '/'] ++ after)).utf8ByteSize = some after := by
    -- the same text, put together in another order
    have htext : before ++ String.ofList ['/', '*'] ++ (inside ++ String.ofList ['*', '/'] ++ after)
        = before ++ String.ofList ['/', '*'] ++ inside ++ String.ofList ['*', '/'] ++ after := by
      simp only [String.append_assoc]
    have hstart : before.utf8ByteSize + 2 + inside.utf8ByteSize + 2
        = (before ++ String.ofList ['/', '*'] ++ inside).utf8ByteSize
          + (String.ofList ['*', '/']).utf8ByteSize := by
      simp only [String.utf8ByteSize_append]
      rfl
    rw [htext, hstart]
    exact slice?_behind _ _ after
  rw [sliceBlockComments?, hopening]
  show (slice? _ (before.utf8ByteSize + (String.ofList ['/', '*']).utf8ByteSize) _).bind _ = _
  rw [hinside, Option.bind_some, hclosing]
  show (slice? _ 0 _).bind _ = _
  rw [hfront, Option.bind_some]
  split
  next hnone => exact absurd (hafter.symm.trans hnone) (by simp)
  next found hfound =>
    obtain rfl : after = found := Option.some.inj (hafter.symm.trans hfound)
    rfl

/-- Blanking by positions is blanking by characters. -/
theorem sliceBlockComments?_eq (text : String) :
    sliceBlockComments? text = some (String.ofList (blankBlockComments text.toList)) := by
  induction hsize : text.utf8ByteSize using Nat.strong_induction_on generalizing text with
  | h size ih =>
    subst hsize
    cases hopening : offsetOf? ['/', '*'] text.toList with
    | none =>
      rw [sliceBlockComments?, hopening,
        blankBlockComments_eq_self (offsetOf?_eq_none_iff.1 hopening), String.ofList_toList]
    | some opening =>
      obtain ⟨before, rest, rfl, rfl, hbefore⟩ := exists_split_of_offsetOf? hopening
      cases hclosing : offsetOf? ['*', '/'] rest.toList with
      | none =>
        have hopen := blankBlockComments_open hbefore (offsetOf?_eq_none_iff.1 hclosing)
        have hrest := slice?_behind before (String.ofList ['/', '*']) rest
        rw [sliceBlockComments?, hopening]
        show (slice? _ (before.utf8ByteSize + (String.ofList ['/', '*']).utf8ByteSize) _).bind _ = _
        rw [hrest, Option.bind_some, hclosing, Option.some_inj]
        apply String.toList_injective
        simp [hopen]
      | some closing =>
        obtain ⟨inside, after, rfl, rfl, hinside⟩ := exists_split_of_offsetOf? hclosing
        have hmark : PairFree '/' '*' before.toList
            ('/' :: '*' :: (inside.toList ++ '*' :: '/' :: after.toList)) := by
          simpa using hbefore
        have hcomment := blankBlockComments_comment hmark hinside
        rw [sliceBlockComments?_comment hopening hclosing, ih after.utf8ByteSize _ after rfl,
          Option.map_some, Option.some_inj]
        · apply String.toList_injective
          simpa using hcomment.symm
        · simp only [String.utf8ByteSize_append]
          have : (String.ofList ['/', '*']).utf8ByteSize = 2 := rfl
          omega

/-! ## §3. Line comments. -/

/-- In a line, the first mark is the end of it. -/
theorem cutLineComments_mark {before after : List Char}
    (hbefore : PairFree '/' '/' before ('/' :: '/' :: after)) (hafter : '\n' ∉ after)
    (ds : List Char) (hstop : ds.head?.any (· != '\n') = false) :
    cutLineComments (before ++ '/' :: '/' :: (after ++ ds)) = before ++ cutLineComments ds := by
  have hmore : PairFree '/' '/' before ('/' :: '/' :: (after ++ ds)) :=
    ⟨hbefore.inside, hbefore.meeting⟩
  rw [hmore.cutLineComments_append, cutLineComments_line hafter hstop]

theorem sliceLine?_eq {line : String} (hline : '\n' ∉ line.toList) :
    sliceLine? line = some (String.ofList (cutLineComments line.toList)) := by
  unfold sliceLine?
  cases hmark : offsetOf? ['/', '/'] line.toList with
  | none => rw [cutLineComments_eq_self (offsetOf?_eq_none_iff.1 hmark), String.ofList_toList]
  | some mark =>
    obtain ⟨before, after, rfl, rfl, hbefore⟩ := exists_split_of_offsetOf? hmark
    have hafter : '\n' ∉ after.toList := fun hmem => hline (by simp [hmem])
    have hcut := cutLineComments_mark hbefore hafter [] rfl
    rw [List.append_nil, cutLineComments, List.append_nil] at hcut
    have hfront := slice?_before before (String.ofList ['/', '/'] ++ after)
    rw [← String.append_assoc] at hfront
    show slice? _ 0 _ = _
    rw [hfront, Option.some_inj]
    apply String.toList_injective
    simp [hcut]

/-- What is cut from a line does not reach over its end. -/
theorem cutLineComments_append_newline {cs ds : List Char} (hcs : '\n' ∉ cs) :
    cutLineComments (cs ++ '\n' :: ds) = cutLineComments cs ++ '\n' :: cutLineComments ds := by
  have hbreak : cutLineComments ('\n' :: ds) = '\n' :: cutLineComments ds := by
    rw [cutLineComments]
    simp
  cases hmark : offsetOf? ['/', '/'] cs with
  | none =>
    have hfree := offsetOf?_eq_none_iff.1 hmark
    have hpass : PairFree '/' '/' cs ('\n' :: ds) := ⟨hfree, by simp⟩
    rw [hpass.cutLineComments_append, cutLineComments_eq_self hfree, hbreak]
  | some mark =>
    obtain ⟨before, after, rfl, -, hbefore⟩ := offsetOf?_eq_some hmark
    have hafter : '\n' ∉ after := fun hmem => hcs (by simp [hmem])
    have hhere := cutLineComments_mark hbefore hafter [] rfl
    have hthere := cutLineComments_mark hbefore hafter ('\n' :: ds) rfl
    rw [List.append_nil, cutLineComments, List.append_nil] at hhere
    rw [hhere, List.append_assoc, List.cons_append, List.cons_append, hthere, hbreak]

/-- Cutting a text is cutting each of its lines. -/
theorem cutLineComments_unlines {ls : List String} (h : ∀ l ∈ ls, '\n' ∉ l.toList) :
    String.ofList (cutLineComments (unlines ls).toList)
      = unlines (ls.map fun l => String.ofList (cutLineComments l.toList)) := by
  induction ls with
  | nil => simp [cutLineComments]
  | cons l ls ih =>
    cases ls with
    | nil => simp
    | cons m ls =>
      have hrest := ih fun k hk => h k (List.mem_cons_of_mem _ hk)
      rw [List.map_cons] at hrest
      apply String.toList_injective
      rw [List.map_cons, List.map_cons, unlines_cons_cons, unlines_cons_cons, ← hrest]
      simp [cutLineComments_append_newline (h l List.mem_cons_self)]

/-! ## §4. The whole text. -/

/-- A loop over a list fails nowhere if no step of it does. -/
theorem mapM_of_forall {α β : Type} {step? : α → Option β} {step : α → β} {l : List α}
    (h : ∀ a ∈ l, step? a = some (step a)) : l.mapM step? = some (l.map step) := by
  induction l with
  | nil => rfl
  | cons a l ih =>
    rw [List.mapM_cons, h a List.mem_cons_self, ih fun b hb => h b (List.mem_cons_of_mem _ hb)]
    rfl

/-- **Removing comments by byte positions fails on no text**, and gives what removing them
    by characters gives. -/
theorem sliceComments?_eq (text : String) : sliceComments? text = some (stripComments text) := by
  unfold sliceComments?
  rw [sliceBlockComments?_eq, Option.bind_some]
  have hlines := fun l (hl : l ∈ lines (String.ofList (blankBlockComments text.toList))) =>
    not_newline_mem_of_mem_lines hl
  rw [mapM_of_forall fun l hl => sliceLine?_eq (hlines l hl), Option.map_some,
    ← cutLineComments_unlines hlines, unlines_lines, String.toList_ofList]
  rfl

end GlslMinifier
