/-
  GlslMinifier.Proofs.Json.Value — passing over JSON values.

  The reader keeps a list of the brackets that are open around the next value.  What it does
  after a value (`skipAfter`) depends on that list alone, so a value is passed over in the
  same way wherever it stands, and the induction is on the value.

  Main results:
    * `isSkipped_of_isValue` — a value is passed over, with no part of what follows
    * `skipValue_padded` — of a value with space around it, the space after it is left
-/
import GlslMinifier.Json.Value
import GlslMinifier.Proofs.Json.Number
import GlslMinifier.Proofs.Json.Quoted

namespace GlslMinifier.Json

/-! ## §1. Space. -/

variable {spaces text rest : List Char}

theorem isSpaces_nil : IsSpaces [] := fun _ hc => absurd hc List.not_mem_nil

theorem skipSpace_append (h : IsSpaces spaces) : skipSpace (spaces ++ rest) = skipSpace rest :=
  List.dropWhile_append_of_pos h

theorem skipSpace_cons {c : Char} (h : isSpace c = false) : skipSpace (c :: rest) = c :: rest := by
  rw [skipSpace, List.dropWhile_cons, h]
  rfl

/-- A value may end before this character. -/
def endsValue (c : Char) : Bool := isSpace c || c == ',' || c == ']' || c == '\x7d'

/-- What comes next does not go on with a value. -/
def Ends (rest : List Char) : Prop := rest.head?.all endsValue = true

theorem ends_cons {c : Char} (h : endsValue c = true) : Ends (c :: rest) := h

theorem ends_append (hspaces : IsSpaces spaces) (h : Ends rest) : Ends (spaces ++ rest) := by
  cases spaces with
  | nil => exact h
  | cons c spaces =>
    apply ends_cons
    rw [endsValue, hspaces c List.mem_cons_self]
    rfl

theorem continuesNumeral_of_endsValue {c : Char} (h : endsValue c = true) :
    continuesNumeral c = false := by
  simp only [endsValue, isSpace, Bool.or_eq_true, beq_iff_eq, or_assoc] at h
  obtain rfl | rfl | rfl | rfl | rfl | rfl | rfl := h <;> decide

/-! ## §2. Scalars. -/

def startsScalar (c : Char) : Bool := ['n', 't', 'f', '"', '-'].contains c || c.isDigit

theorem startsScalar_ne {c d : Char} (hc : startsScalar c = true) (hd : startsScalar d = false) :
    c ≠ d := by
  rintro rfl
  exact Bool.false_ne_true (hd.symm.trans hc)

theorem startsScalar_not_isSpace {c : Char} (h : startsScalar c = true) : isSpace c = false := by
  have hne {d : Char} (hd : startsScalar d = false) : (c == d) = false :=
    beq_false_of_ne (startsScalar_ne h hd)
  rw [isSpace, hne (by decide), hne (by decide), hne (by decide), hne (by decide)]
  rfl

theorem numeral_head {v : List Char} (h : SpellsNumeral v) :
    ∃ c cs, v = c :: cs ∧ c.isDigit = true := by
  obtain @⟨whole, fraction, exponent, hwhole, -, -⟩ := h
  cases whole with
  | nil => exact absurd rfl hwhole.nonempty
  | cons d ds => exact ⟨d, _, rfl, hwhole.digit d List.mem_cons_self⟩

theorem IsScalar.head {v : List Char} (h : IsScalar v) :
    ∃ c cs, v = c :: cs ∧ startsScalar c = true := by
  cases h with
  | literal hv =>
    have hall : ∀ v ∈ literals, ∃ c, v.head? = some c ∧ startsScalar c = true := by
      simp [literals, startsScalar]
    obtain ⟨c, hc, hstart⟩ := hall v hv
    obtain ⟨cs, rfl⟩ := List.head?_eq_some_iff.1 hc
    exact ⟨c, cs, rfl, hstart⟩
  | string hv =>
    cases hv with
    | quoted => exact ⟨_, _, rfl, by decide⟩
  | positive hv =>
    obtain ⟨c, cs, rfl, hc⟩ := numeral_head hv
    exact ⟨c, cs, rfl, by rw [startsScalar, hc, Bool.or_true]⟩
  | negative => exact ⟨_, _, rfl, by decide⟩

theorem skipScalar_digit {c : Char} {cs : List Char} (h : c.isDigit = true) :
    skipScalar (c :: cs) = skipNumeral (c :: cs) := by
  have hne {d : Char} (hd : d.isDigit = false) : c ≠ d := by
    rintro rfl
    exact Bool.false_ne_true (hd.symm.trans h)
  rw [skipScalar, if_pos h]
  · exact hne (by decide)
  · exact hne (by decide)
  · exact hne (by decide)
  · exact hne (by decide)
  · exact hne (by decide)

theorem skipScalar_append {v : List Char} (h : IsScalar v) (hrest : Ends rest) :
    skipScalar (v ++ rest) = .ok rest := by
  have hnumeral : rest.head?.any continuesNumeral = false := by
    cases hhead : rest.head? with
    | none => rfl
    | some c => exact continuesNumeral_of_endsValue (by simpa [Ends, hhead] using hrest)
  cases h with
  | literal hv =>
    simp only [literals, List.mem_cons, List.not_mem_nil, or_false] at hv
    obtain rfl | rfl | rfl := hv <;> simp [skipScalar, expect]
  | string hv =>
    cases hv with
    | quoted hspelling =>
      rw [List.cons_append, List.append_assoc, skipScalar]
      show (readQuoted false (_ ++ '"' :: rest)).map (·.2) = _
      rw [readQuoted_spelling hspelling]
      rfl
  | positive hv =>
    obtain ⟨c, cs, rfl, hc⟩ := numeral_head hv
    rw [List.cons_append, skipScalar_digit hc, ← List.cons_append]
    exact skipNumeral_append hv hnumeral
  | negative hv =>
    rw [List.cons_append, skipScalar]
    exact skipNumeral_append hv hnumeral

/-! ## §3. Brackets. -/

namespace Bracket

def opening : Bracket → Char
  | array => '['
  | object => '\x7b'

def closing : Bracket → Char
  | array => ']'
  | object => '\x7d'

/-- Reads what stands between brackets before a value: in an object, its key. -/
def enter : Bracket → List Char → Except Fault (List Char)
  | array, cs => .ok cs
  | object, cs => skipKey cs

end Bracket

/-- Reads past the brackets that are open, from the next value on. -/
def skipOpen : Found (List Bracket) → Except Fault (List Char)
  | ([], rest) => .ok rest
  | (bracket :: outer, rest) => skipValueIn (bracket :: outer) rest

/-- Reads past what follows a value, and past the brackets open around it. -/
def skipAfter (around : List Bracket) (cs : List Char) : Except Fault (List Char) :=
  skipEnds around cs >>= skipOpen

variable {around outer : List Bracket} {b : Bracket}

theorem skipValueIn_eq (around : List Bracket) (cs : List Char) :
    skipValueIn around cs = skipStep around cs >>= skipOpen := by
  rw [skipValueIn]
  split
  · next hstep => rw [hstep]; rfl
  · next hstep => rw [hstep]; rfl
  · next hstep => rw [hstep]; rfl

theorem map_skipOpen (x : Except Fault (List Char)) :
    x.map (b :: outer, ·) >>= skipOpen = x >>= skipValueIn (b :: outer) := by
  cases x <;> rfl

theorem skipAfter_nil (rest : List Char) : skipAfter [] rest = .ok rest := rfl

theorem skipAfter_spaces (h : IsSpaces spaces) :
    skipAfter (b :: outer) (spaces ++ rest) = skipAfter (b :: outer) rest := by
  cases b <;> simp only [skipAfter, skipEnds, skipSpace_append h]

theorem skipAfter_closing : skipAfter (b :: outer) (b.closing :: rest) = skipAfter outer rest := by
  cases b <;> rfl

theorem skipAfter_comma :
    skipAfter (b :: outer) (',' :: rest) = b.enter rest >>= skipValueIn (b :: outer) := by
  rw [← map_skipOpen]
  cases b <;> rfl

theorem skipValueIn_spaces (h : IsSpaces spaces) :
    skipValueIn around (spaces ++ rest) = skipValueIn around rest := by
  rw [skipValueIn_eq, skipValueIn_eq, skipStep, skipStep, skipSpace_append h]

theorem skipValueIn_empty (h : IsSpaces spaces) :
    skipValueIn around (b.opening :: (spaces ++ b.closing :: rest)) = skipAfter around rest := by
  have hclosing : skipSpace (b.closing :: rest) = b.closing :: rest :=
    skipSpace_cons (by cases b <;> decide)
  rw [skipValueIn_eq, skipStep, skipSpace_cons (by cases b <;> decide)]
  cases b <;> simp only [Bracket.opening, skipSpace_append h, hclosing] <;> rfl

theorem skipValueIn_opening {inside : List Char}
    (h : (skipSpace inside).head? ≠ some b.closing) :
    skipValueIn around (b.opening :: inside) = b.enter inside >>= skipValueIn (b :: around) := by
  have hstep : skipStep around (b.opening :: inside)
      = (b.enter inside).map (b :: around, ·) := by
    rw [skipStep, skipSpace_cons (by cases b <;> decide)]
    cases b
    all_goals
      simp only [Bracket.opening]
      split
      · next hinside => exact absurd (congrArg List.head? hinside) h
      · rfl
  rw [skipValueIn_eq, hstep, map_skipOpen]

theorem skipValueIn_scalar {v : List Char} (h : IsScalar v) (hrest : Ends rest) :
    skipValueIn around (v ++ rest) = skipAfter around rest := by
  obtain ⟨c, cs, rfl, hc⟩ := h.head
  have hstep : skipStep around (c :: cs ++ rest) = skipEnds around rest := by
    rw [skipStep, List.cons_append, skipSpace_cons (startsScalar_not_isSpace hc)]
    split
    · next heq =>
      cases heq
      exact absurd hc (by decide)
    · next heq =>
      cases heq
      exact absurd hc (by decide)
    · rw [← List.cons_append, skipScalar_append h hrest]
      rfl
  rw [skipValueIn_eq, hstep]
  rfl

/-! ## §4. Lists between brackets. -/

/-- `t` is a member of a list between brackets: it does not look like the end of the list,
    and it is read past wherever the list stands. -/
structure Enters (b : Bracket) (t : List Char) : Prop where
  opens : ∀ rest, (skipSpace (t ++ rest)).head? ≠ some b.closing
  skips : ∀ outer rest, Ends rest →
    (b.enter (t ++ rest) >>= skipValueIn (b :: outer)) = skipAfter (b :: outer) rest

variable {α : Type} {writes : α → List Char → Prop} {xs : List α}

theorem Listed.opens {c : Char} (h : Listed writes xs text)
    (hxs : ∀ x ∈ xs, ∀ t, writes x t → ∀ rest, (skipSpace (t ++ rest)).head? ≠ some c) :
    (skipSpace (text ++ rest)).head? ≠ some c := by
  cases h with
  | last ht => exact hxs _ List.mem_cons_self _ ht _
  | cons ht =>
    rw [List.append_assoc]
    exact hxs _ List.mem_cons_self _ ht _

theorem Listed.skips (h : Listed writes xs text) (hxs : ∀ x ∈ xs, ∀ t, writes x t → Enters b t) :
    (b.enter (text ++ b.closing :: rest) >>= skipValueIn (b :: outer)) = skipAfter outer rest := by
  have hclosing : Ends (b.closing :: rest) := ends_cons (by cases b <;> decide)
  induction h with
  | last ht =>
    rw [(hxs _ List.mem_cons_self _ ht).skips outer _ hclosing, skipAfter_closing]
  | cons ht _ ih =>
    rw [List.append_assoc, List.cons_append,
      (hxs _ List.mem_cons_self _ ht).skips outer _ (ends_cons (by decide)), skipAfter_comma]
    exact ih fun x hx => hxs x (List.mem_cons_of_mem _ hx)

theorem Items.skips (h : Items writes xs text) (hxs : ∀ x ∈ xs, ∀ t, writes x t → Enters b t) :
    skipValueIn around (b.opening :: (text ++ b.closing :: rest)) = skipAfter around rest := by
  cases h with
  | none hspaces => exact skipValueIn_empty hspaces
  | some hlisted =>
    rw [skipValueIn_opening (hlisted.opens fun x hx t ht => (hxs x hx t ht).opens)]
    exact hlisted.skips hxs

/-! ## §5. Values. -/

/-- A text that is passed over as a value, whatever is open around it. -/
def IsSkipped (v : List Char) : Prop :=
  ∀ around rest, Ends rest → skipValueIn around (v ++ rest) = skipAfter around rest

theorem IsValue.head {v : List Char} (h : IsValue v) :
    ∃ c cs, v = c :: cs ∧ isSpace c = false ∧ c ≠ ']' := by
  cases h with
  | scalar hv =>
    obtain ⟨c, cs, rfl, hc⟩ := hv.head
    exact ⟨c, cs, rfl, startsScalar_not_isSpace hc, startsScalar_ne hc (by decide)⟩
  | array => exact ⟨_, _, rfl, by decide, by decide⟩
  | object => exact ⟨_, _, rfl, by decide, by decide⟩

theorem IsSkipped.padded {v t : List Char} (h : IsSkipped v) (ht : Padded v t)
    (hrest : Ends rest) : skipValueIn (b :: outer) (t ++ rest) = skipAfter (b :: outer) rest := by
  obtain ⟨hbefore, hafter⟩ := ht
  rw [List.append_assoc, List.append_assoc, skipValueIn_spaces hbefore,
    h (b :: outer) _ (ends_append hafter hrest), skipAfter_spaces hafter]

theorem enters_padded {v t : List Char} (hv : IsValue v) (h : IsSkipped v) (ht : Padded v t) :
    Enters .array t := by
  refine ⟨fun rest => ?_, fun outer rest hrest => h.padded ht hrest⟩
  obtain ⟨c, cs, rfl, hc, hne⟩ := hv.head
  obtain ⟨hbefore, -⟩ := ht
  rw [List.append_assoc, skipSpace_append hbefore, List.append_assoc, List.cons_append,
    skipSpace_cons hc]
  simpa [Bracket.closing] using hne

theorem head?_string {paired : Bool} {before v s : List Char} (hbefore : IsSpaces before)
    (h : IsString paired s v) : (skipSpace (before ++ (v ++ rest))).head? = some '"' := by
  obtain ⟨-⟩ := h
  rw [skipSpace_append hbefore, List.cons_append, skipSpace_cons (by decide)]
  rfl

theorem skipColon_append (h : IsSpaces spaces) :
    skipColon (spaces ++ ':' :: rest) = .ok rest := by
  rw [skipColon, skipSpace_append h, skipSpace_cons (by decide)]
  rfl

/-- What stands before the value of a member is read past. -/
theorem skipKey_append {before key after s : List Char} (hbefore : IsSpaces before)
    (hkey : IsString false s key) (hafter : IsSpaces after) :
    skipKey (before ++ (key ++ (after ++ ':' :: rest))) = .ok rest := by
  obtain @⟨spelled, hspelling⟩ := hkey
  have hquoted := readQuoted_spelling hspelling (after ++ ':' :: rest)
  rw [skipKey, skipSpace_append hbefore, List.cons_append, List.append_assoc,
    skipSpace_cons (by decide)]
  show (readQuoted false (spelled ++ '"' :: (after ++ ':' :: rest)) >>= fun found =>
    skipColon found.2) = _
  rw [hquoted]
  exact skipColon_append hafter

theorem enters_member {m : Member} {t : List Char} (h : IsSkipped m.value)
    (ht : WritesMember false m t) : Enters .object t := by
  obtain @⟨before, key, after, value, hbefore, hkey, hafter, hvalue⟩ := ht
  constructor
  · intro rest
    rw [List.append_assoc, List.append_assoc, head?_string hbefore hkey]
    decide
  · intro outer rest hrest
    have happend : before ++ (key ++ (after ++ ':' :: value)) ++ rest
        = before ++ (key ++ (after ++ ':' :: (value ++ rest))) := by simp
    rw [happend]
    show (skipKey _ >>= _) = _
    rw [skipKey_append hbefore hkey hafter]
    exact h.padded hvalue hrest

/-- **A value is passed over, up to what ends it, whatever is open around it.** -/
theorem isSkipped_of_isValue {v : List Char} (h : IsValue v) : IsSkipped v := by
  induction h with
  | scalar hv => exact fun around rest hrest => skipValueIn_scalar hv hrest
  | @array values text htext hvalues ih =>
    intro around rest _
    rw [List.cons_append, List.append_assoc]
    exact htext.skips (b := .array) fun v hv t ht => enters_padded (hvalues v hv) (ih v hv) ht
  | @object members text htext _ ih =>
    intro around rest _
    rw [List.cons_append, List.append_assoc]
    exact htext.skips (b := .object) fun m hm t ht => enters_member (ih m hm) ht

theorem skipValue_padded {v before after : List Char} (hv : IsValue v) (hbefore : IsSpaces before)
    (hafter : IsSpaces after) (hrest : Ends rest) :
    skipValue (before ++ (v ++ (after ++ rest))) = .ok (after ++ rest) := by
  rw [skipValue, skipValueIn_spaces hbefore,
    isSkipped_of_isValue hv [] _ (ends_append hafter hrest), skipAfter_nil]

end GlslMinifier.Json
