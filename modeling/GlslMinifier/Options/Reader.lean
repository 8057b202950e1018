/-
  GlslMinifier.Options.Reader — reading options from JSON text.

  This reader stands in for that of a JSON library (`OptionsFormat.standIn`).  Options are
  given as an object, or as an array of the fields in order.  Fields that are left out keep
  their defaults, unknown fields of an object are passed over, and a field given twice is
  refused.
-/
import GlslMinifier.Json.Value
import GlslMinifier.Options.Basic

namespace GlslMinifier

open Json

/-! ## §1. Values of fields. -/

/-- Reads a choice; `null` stands for none. -/
def readChoice (cs : List Char) : Except Fault (Found (Option Bool)) :=
  match skipSpace cs with
  | 'n' :: rest => (expect ['u', 'l', 'l'] rest).map (none, ·)
  | 't' :: rest => (expect ['r', 'u', 'e'] rest).map (some true, ·)
  | 'f' :: rest => (expect ['a', 'l', 's', 'e'] rest).map (some false, ·)
  | rest => .error (misplaced rest)

/-- Reads a name. -/
def readName (cs : List Char) : Except Fault (Found String) :=
  match skipSpace cs with
  | '"' :: rest => (readQuoted true rest).map fun found => (String.ofList found.1, found.2)
  | rest => .error (misplaced rest)

theorem readName_length {cs rest : List Char} {name : String}
    (h : readName cs = .ok (name, rest)) : rest.length < cs.length := by
  simp only [readName] at h
  split at h
  · next rest' hspace =>
    simp only [map_eq_ok, Prod.exists] at h
    obtain ⟨s, rest'', hquoted, heq⟩ := h
    cases heq
    have := skipSpace_cons_length hspace
    have := readQuoted_length hquoted
    omega
  · cases h

/-- Reads the names of a list from the next one on, up to its closing bracket. -/
def readNamesFrom (cs : List Char) : Except Fault (Found (List String)) :=
  match _h : readName cs with
  | .error e => .error e
  | .ok (name, rest) =>
    match _h' : skipSpace rest with
    | ']' :: rest => .ok ([name], rest)
    | ',' :: rest => (readNamesFrom rest).map fun found => (name :: found.1, found.2)
    | rest => .error (unexpected rest)
termination_by cs.length
decreasing_by
  have := readName_length _h
  have := skipSpace_cons_length _h'
  omega

/-- Reads a list of names. -/
def readNames (cs : List Char) : Except Fault (Found (List String)) :=
  match skipSpace cs with
  | '[' :: inside =>
    match skipSpace inside with
    | ']' :: rest => .ok ([], rest)
    | _ => readNamesFrom inside
  | rest => .error (misplaced rest)

/-- Reads the value of a field into the options. -/
def OptionField.read (o : Options) (cs : List Char) :
    OptionField → Except Fault (Found Options)
  | rename => (readChoice cs).map fun found => ({ o with rename := found.1 }, found.2)
  | namingConvention =>
    (readChoice cs).map fun found => ({ o with namingConvention := found.1 }, found.2)
  | preserveNames =>
    (readNames cs).map fun found => ({ o with preserveNames := found.1 }, found.2)
  | escapeNewlines =>
    (readChoice cs).map fun found => ({ o with escapeNewlines := found.1 }, found.2)

theorem readNamesFrom_length {cs rest : List Char} {names : List String}
    (h : readNamesFrom cs = .ok (names, rest)) : rest.length < cs.length := by
  fun_induction readNamesFrom cs generalizing names rest with
  | case1 => cases h
  | case2 cs name mid hname rest' hspace =>
    cases h
    have := readName_length hname
    have := skipSpace_cons_length hspace
    omega
  | case3 cs name mid hname rest' hspace ih =>
    simp only [map_eq_ok, Prod.exists] at h
    obtain ⟨s, rest'', h, heq⟩ := h
    cases heq
    have := ih h
    have := readName_length hname
    have := skipSpace_cons_length hspace
    omega
  | case4 => cases h

theorem readChoice_length {cs rest : List Char} {choice : Option Bool}
    (h : readChoice cs = .ok (choice, rest)) : rest.length < cs.length := by
  simp only [readChoice] at h
  split at h
  case h_4 => cases h
  all_goals
    next rest' hspace =>
      simp only [map_eq_ok] at h
      obtain ⟨rest'', hexpect, heq⟩ := h
      cases heq
      have := skipSpace_cons_length hspace
      have := expect_length_le hexpect
      omega

theorem readNames_length {cs rest : List Char} {names : List String}
    (h : readNames cs = .ok (names, rest)) : rest.length < cs.length := by
  simp only [readNames] at h
  split at h
  · next inside hspace =>
    have := skipSpace_cons_length hspace
    split at h
    · next rest' hspace' =>
      cases h
      have := skipSpace_cons_length hspace'
      omega
    · have := readNamesFrom_length h
      omega
  · cases h

theorem OptionField.read_length {o o' : Options} {cs rest : List Char} {field : OptionField}
    (h : field.read o cs = .ok (o', rest)) : rest.length < cs.length := by
  cases field <;> simp only [OptionField.read, map_eq_ok, Prod.exists] at h <;>
  obtain ⟨v, rest', hread, heq⟩ := h <;> cases heq
  · exact readChoice_length hread
  · exact readChoice_length hread
  · exact readNames_length hread
  · exact readChoice_length hread

/-! ## §2. Objects. -/

/-- Options read so far, with the fields that were given. -/
structure PartialOptions where
  given : List OptionField
  options : Options
  deriving DecidableEq, Repr

/-- Reads a member whose opening quote has been read. -/
def readMember (p : PartialOptions) (cs : List Char) : Except Fault (Found PartialOptions) := do
  let (key, rest) ← readQuoted true cs
  match OptionField.ofKey? (String.ofList key) with
  | some field =>
    if field ∈ p.given then .error .mistyped
    else
      let (options, rest) ← field.read p.options (← skipColon rest)
      .ok (⟨field :: p.given, options⟩, rest)
  | none =>
    let rest ← skipValue (← skipColon rest)
    .ok (p, rest)

theorem readMember_length {p p' : PartialOptions} {cs rest : List Char}
    (h : readMember p cs = .ok (p', rest)) : rest.length < cs.length := by
  simp only [readMember, bind_eq_ok, Prod.exists] at h
  obtain ⟨key, mid, hkey, h⟩ := h
  have := readQuoted_length hkey
  split at h
  · split at h
    · cases h
    · simp only [bind_eq_ok, Prod.exists] at h
      obtain ⟨after, hcolon, options, rest', hread, h⟩ := h
      cases h
      have := skipColon_length hcolon
      have := OptionField.read_length hread
      omega
  · simp only [bind_eq_ok] at h
    obtain ⟨after, hcolon, rest', hskip, h⟩ := h
    cases h
    have := skipColon_length hcolon
    have := skipValue_length hskip
    omega

/-- Reads the members of an object from the next one on, whose opening quote has been
    read, up to the closing brace. -/
def readMembersFrom (p : PartialOptions) (cs : List Char) : Except Fault (Found Options) :=
  match _h : readMember p cs with
  | .error e => .error e
  | .ok (p, rest) =>
    match _h' : skipSpace rest with
    | '\x7d' :: rest => .ok (p.options, rest)
    | ',' :: rest =>
      match _h'' : skipSpace rest with
      | '"' :: rest => readMembersFrom p rest
      | rest => .error (unexpected rest)
    | rest => .error (unexpected rest)
termination_by cs.length
decreasing_by
  have := readMember_length _h
  have := skipSpace_cons_length _h'
  have := skipSpace_cons_length _h''
  omega

/-- Reads the members of an object whose opening brace has been read. -/
def readMembers (cs : List Char) : Except Fault (Found Options) :=
  match skipSpace cs with
  | '\x7d' :: rest => .ok (.default, rest)
  | '"' :: rest => readMembersFrom ⟨[], .default⟩ rest
  | rest => .error (unexpected rest)

/-! ## §3. Arrays. -/

/-- Reads the values of further fields up to the closing bracket; a comma stands before
    each of them. -/
def readFurtherFields (o : Options) :
    List OptionField → List Char → Except Fault (Found Options)
  | fields, cs =>
    match fields, skipSpace cs with
    | _, ']' :: rest => .ok (o, rest)
    | field :: fields, ',' :: rest => do
      let (o, rest) ← field.read o rest
      readFurtherFields o fields rest
    | _, rest => .error (unexpected rest)

/-- Reads the values of all fields in order up to the closing bracket.  Fields at the end
    may be left out. -/
def readFields (cs : List Char) : Except Fault (Found Options) :=
  match skipSpace cs with
  | ']' :: rest => .ok (.default, rest)
  | first => do
    let (o, rest) ← OptionField.rename.read .default first
    readFurtherFields o OptionField.all.tail rest

/-! ## §4. Texts. -/

/-- Reads options from the front of a text. -/
def readOptions (cs : List Char) : Except Fault (Found Options) :=
  match skipSpace cs with
  | '\x7b' :: rest => readMembers rest
  | '[' :: rest => readFields rest
  | rest => .error (misplaced rest)

/-- The options that a text gives; nothing but space may follow them. -/
def Options.parse (text : String) : Except Fault Options := do
  let (options, rest) ← readOptions text.toList
  match skipSpace rest with
  | [] => .ok options
  | _ :: _ => .error .malformed

end GlslMinifier
