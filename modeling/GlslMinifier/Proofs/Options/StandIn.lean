/-
  GlslMinifier.Proofs.Options.StandIn — the stand-in keeps what a JSON library promises.

  The stand-in goes through a text once.  Its state after some members is told from the fields
  that they have given (`readSoFar`), so one lemma about a member carries the run.  What it
  writes is an object of all fields, whatever space its layout puts between the pieces.

  Main results:
    * `readMembersAt_listed` — a run over members
    * `parse_of_describes` — the stand-in finds the options that the members describe
    * `isObject_writeObject` — members are written as an object that has them
    * `standIn_lawful` — it keeps every promise of a library
-/
import GlslMinifier.Options.StandIn
import GlslMinifier.Proofs.Json.Value
import GlslMinifier.Proofs.Options.Members

namespace GlslMinifier

open Json

/-! ## §1. Reading values. -/

variable {before after rest : List Char}

theorem readChoice_append {b : Option Bool} {v : List Char} (hbefore : IsSpaces before)
    (h : SpellsValue (.inl b) v) : readChoice (before ++ (v ++ rest)) = .ok (b, rest) := by
  rw [readChoice, skipSpace_append hbefore]
  cases h with
  | null => rfl
  | yes => rfl
  | no => rfl

theorem readName_append {name : String} {v : List Char} (hbefore : IsSpaces before)
    (h : IsString true name.toList v) : readName (before ++ (v ++ rest)) = .ok (name, rest) := by
  obtain @⟨text, hspelling⟩ := h
  rw [readName, skipSpace_append hbefore, List.cons_append, List.append_assoc,
    skipSpace_cons (by decide)]
  show (readQuoted true (text ++ '"' :: rest)).map _ = _
  rw [readQuoted_spelling hspelling]
  show Except.ok (String.ofList name.toList, rest) = _
  rw [String.ofList_toList]

theorem readNamesFrom_eq (cs : List Char) :
    readNamesFrom cs = readName cs >>= fun found =>
      match skipSpace found.2 with
      | ']' :: rest => .ok ([found.1], rest)
      | ',' :: rest => (readNamesFrom rest).map fun more => (found.1 :: more.1, more.2)
      | rest => .error (unexpected rest) := by
  rw [readNamesFrom]
  split
  · next hname => rw [hname]; rfl
  · next name rest hname =>
    rw [hname]
    rw [ok_bind]
    split
    · next hend => simp only [hend]
    · next hend => simp only [hend]
    · next hclose hcomma => split <;> simp_all

/-- A name of a list is read up to the space after it. -/
theorem readName_writesName {name : String} {t : List Char} (h : WritesName name t)
    (rest : List Char) : ∃ after, IsSpaces after ∧
      readName (t ++ rest) = .ok (name, after ++ rest) := by
  obtain ⟨hv, hbefore, hafter⟩ := h
  exact ⟨_, hafter, by rw [List.append_assoc, List.append_assoc, readName_append hbefore hv]⟩

theorem readNamesFrom_listed {names : List String} {text : List Char}
    (h : Listed WritesName names text) :
    readNamesFrom (text ++ ']' :: rest) = .ok (names, rest) := by
  induction h with
  | last ht =>
    obtain ⟨after, hafter, hname⟩ := readName_writesName ht (']' :: rest)
    rw [readNamesFrom_eq, hname, ok_bind]
    simp only [skipSpace_append hafter, skipSpace_cons (c := ']') (by decide)]
  | @cons name names t text ht _ ih =>
    obtain ⟨after, hafter, hname⟩ := readName_writesName ht (',' :: (text ++ ']' :: rest))
    rw [List.append_assoc, List.cons_append, readNamesFrom_eq, hname, ok_bind]
    simp only [skipSpace_append hafter, skipSpace_cons (c := ',') (by decide), ih]
    rfl

theorem readNames_items {names : List String} {text : List Char} (hbefore : IsSpaces before)
    (h : Items WritesName names text) :
    readNames (before ++ ('[' :: (text ++ ']' :: rest))) = .ok (names, rest) := by
  rw [readNames, skipSpace_append hbefore, skipSpace_cons (by decide)]
  cases h with
  | none hspaces => simp only [skipSpace_append hspaces, skipSpace_cons (c := ']') (by decide)]
  | some hlisted =>
    have hopens : (skipSpace (text ++ ']' :: rest)).head? ≠ some ']' := by
      refine hlisted.opens fun name _ t ht rest => ?_
      obtain ⟨hv, hspaces, -⟩ := ht
      rw [List.append_assoc, List.append_assoc, head?_string hspaces hv]
      decide
    simp only
    split
    · next hend => exact absurd (congrArg List.head? hend) hopens
    · exact readNamesFrom_listed hlisted

theorem read_spelled {source o : Options} {f : OptionField} {v : List Char}
    (hbefore : IsSpaces before) (h : SpellsValue (f.value source) v) :
    f.read o (before ++ (v ++ rest)) = .ok (f.copy source o, rest) := by
  cases f with
  | preserveNames =>
    cases h with
    | names htext =>
      rw [List.cons_append, List.append_assoc]
      show (readNames (before ++ ('[' :: (_ ++ ']' :: rest)))).map _ = _
      rw [readNames_items hbefore htext]
      rfl
  | _ =>
    show (readChoice _).map _ = _
    rw [readChoice_append hbefore h]
    rfl

/-! ## §2. Reading members. -/

/-- The defaults with the given fields of `o`. -/
def mix (given : List OptionField) (o : Options) : Options :=
  given.foldr (fun f rest => f.copy o rest) .default

theorem value_mix (given : List OptionField) (o : Options) (g : OptionField) :
    g.value (mix given o) = if g ∈ given then g.value o else g.value .default := by
  induction given with
  | nil => rfl
  | cons f given ih =>
    show g.value (f.copy o (mix given o)) = _
    rw [OptionField.value_copy, ih]
    by_cases hf : g = f <;> simp [hf]

theorem mix_congr {given given' : List OptionField} {o : Options}
    (h : ∀ f, f ∈ given ↔ f ∈ given') : mix given o = mix given' o := by
  apply options_ext
  intro f
  simp only [value_mix, h f]

/-- Where reading is after the given fields, if they agree with `o`. -/
def readSoFar (given : List OptionField) (o : Options) : PartialOptions := ⟨given, mix given o⟩

/-- Reads members from the next one on, up to the closing brace. -/
def readMembersAt (p : PartialOptions) (cs : List Char) : Except Fault (Found Options) :=
  match skipSpace cs with
  | '"' :: rest => readMembersFrom p rest
  | rest => .error (unexpected rest)

theorem readMembersFrom_eq (p : PartialOptions) (cs : List Char) :
    readMembersFrom p cs = readMember p cs >>= fun found =>
      match skipSpace found.2 with
      | '\x7d' :: rest => .ok (found.1.options, rest)
      | ',' :: rest => readMembersAt found.1 rest
      | rest => .error (unexpected rest) := by
  rw [readMembersFrom]
  split
  · next hmember => rw [hmember]; rfl
  · next p' rest hmember =>
    rw [hmember, ok_bind]
    split
    · next hend => simp only [hend]
    · next rest' hend =>
      simp only [hend, readMembersAt]
      split
      · next hquote => simp only [hquote]
      · next hquote => split <;> simp_all
    · next hclose hcomma => split <;> simp_all

/-- One member: a field that agrees with `o` is read into the options, and any other member
    is passed over. -/
theorem readMember_agrees {given : List OptionField} {o : Options} {m : Member} {t : List Char}
    (h : Agrees o m) (hfresh : ∀ f : OptionField, m.key = f.key → f ∉ given)
    (ht : WritesMember true m t) (hrest : Ends rest) :
    ∃ cs after, skipSpace (t ++ rest) = '"' :: cs ∧ IsSpaces after ∧
      readMember (readSoFar given o) cs
        = .ok (readSoFar (givenFields [m] ++ given) o, after ++ rest) := by
  obtain @⟨before, _, colon, _, hbefore, hstring, hcolon, hvalue⟩ := ht
  obtain @⟨key, hkey⟩ := hstring
  obtain @⟨before', after, hbefore', hafter⟩ := hvalue
  have hquoted := readQuoted_spelling hkey
    (colon ++ ':' :: (before' ++ (m.value ++ (after ++ rest))))
  refine ⟨key ++ '"' :: (colon ++ ':' :: (before' ++ (m.value ++ (after ++ rest)))), after,
    ?_, hafter, ?_⟩
  · rw [List.append_assoc, skipSpace_append hbefore, List.cons_append, List.cons_append,
      skipSpace_cons (by decide)]
    simp
  · rw [readMember, hquoted, ok_bind]
    simp only [String.ofList_toList]
    cases h with
    | @known f hkey hvalue =>
      have hf := OptionField.ofKey?_eq_some_iff.2 hkey
      have hnew : ¬ f ∈ (readSoFar given o).given := hfresh f hkey
      simp only [hf, if_neg hnew, skipColon_append hcolon, ok_bind, read_spelled hbefore' hvalue]
      rw [givenFields_known hkey]
      rfl
    | unknown hkey hvalue =>
      have hf := OptionField.ofKey?_eq_none_iff.2 hkey
      simp only [hf, skipColon_append hcolon, ok_bind,
        skipValue_padded hvalue hbefore' hafter hrest]
      rw [givenFields_unknown hkey]
      rfl

theorem givenFields_cons (m : Member) (ms : List Member) :
    givenFields (m :: ms) = givenFields [m] ++ givenFields ms :=
  givenFields_append [m] ms

theorem readMembersAt_quote {p : PartialOptions} {cs inside : List Char}
    (h : skipSpace cs = '"' :: inside) : readMembersAt p cs = readMembersFrom p inside := by
  simp only [readMembersAt, h]

/-- A run over members, from any of them on: their fields come on top of those that were
    given before. -/
theorem readMembersAt_listed {given : List OptionField} {o : Options} {ms : List Member}
    {text : List Char} (h : Listed (WritesMember true) ms text) (hagrees : ∀ m ∈ ms, Agrees o m)
    (hdistinct : (givenFields ms).Nodup) (hfresh : ∀ f ∈ givenFields ms, f ∉ given) :
    readMembersAt (readSoFar given o) (text ++ '\x7d' :: rest)
      = .ok (mix (givenFields ms ++ given) o, rest) := by
  induction h generalizing given with
  | @last m t ht =>
    have hclosing : Ends ('\x7d' :: rest) := ends_cons (by decide)
    obtain ⟨inside, after, hquote, hafter, hmember⟩ := readMember_agrees
      (hagrees m List.mem_cons_self)
      (fun f hf => hfresh f (mem_givenFields_iff.2 ⟨m, List.mem_cons_self, hf⟩)) ht hclosing
    rw [readMembersAt_quote hquote, readMembersFrom_eq, hmember, ok_bind]
    simp only [skipSpace_append hafter, skipSpace_cons (c := '\x7d') (by decide)]
    rfl
  | @cons m ms t text ht _ ih =>
    have hcomma : Ends (',' :: (text ++ '\x7d' :: rest)) := ends_cons (by decide)
    obtain ⟨inside, after, hquote, hafter, hmember⟩ := readMember_agrees
      (hagrees m List.mem_cons_self)
      (fun f hf => hfresh f (mem_givenFields_iff.2 ⟨m, List.mem_cons_self, hf⟩)) ht hcomma
    rw [givenFields_cons, List.nodup_append] at hdistinct
    obtain ⟨-, hdistinct, hapart⟩ := hdistinct
    have hfresh' : ∀ f ∈ givenFields ms, f ∉ givenFields [m] ++ given := by
      intro f hf hmem
      obtain hmem | hmem := List.mem_append.1 hmem
      · exact hapart f hmem f hf rfl
      · exact hfresh f (givenFields_cons m ms ▸ List.mem_append_right _ hf) hmem
    rw [List.append_assoc, List.cons_append, readMembersAt_quote hquote, readMembersFrom_eq,
      hmember, ok_bind]
    simp only [skipSpace_append hafter, skipSpace_cons (c := ',') (by decide)]
    have hmix : mix (givenFields ms ++ (givenFields [m] ++ given)) o
        = mix (givenFields (m :: ms) ++ given) o := by
      apply mix_congr
      intro f
      rw [givenFields_cons m ms]
      simp only [List.mem_append, or_left_comm, or_assoc]
    rw [ih (fun m' hm' => hagrees m' (List.mem_cons_of_mem _ hm')) hdistinct hfresh', hmix]

/-! ## §3. Reading texts. -/

theorem mix_eq_of_describes {ms : List Member} {o : Options} (h : Describes ms o) :
    mix (givenFields ms) o = o := by
  apply options_ext
  intro f
  rw [value_mix]
  split
  · rfl
  · next hf => exact (h.absent f hf).symm

theorem readMembers_items {ms : List Member} {o : Options} {text : List Char}
    (h : Items (WritesMember true) ms text) (hdistinct : (givenFields ms).Nodup)
    (hdescribes : Describes ms o) : readMembers (text ++ '\x7d' :: rest) = .ok (o, rest) := by
  have hmix := mix_eq_of_describes hdescribes
  cases h with
  | none hspaces =>
    have hdefault : Options.default = o := hmix
    simp only [readMembers, skipSpace_append hspaces, skipSpace_cons (c := '\x7d') (by decide),
      hdefault]
  | some hlisted =>
    have hrun : readMembersAt (readSoFar [] o) (text ++ '\x7d' :: rest)
        = .ok (mix (givenFields ms ++ []) o, rest) :=
      readMembersAt_listed hlisted hdescribes.agrees hdistinct (by simp)
    rw [List.append_nil, hmix, readMembersAt] at hrun
    rw [readMembers]
    split at hrun
    · next hquote =>
      simp only [hquote]
      exact hrun
    · cases hrun

/-- **An object text gives the options that its members describe.** -/
theorem parse_of_describes {ms : List Member} {o : Options} {text : String}
    (h : IsObject ms text.toList) (hdistinct : (givenFields ms).Nodup)
    (hdescribes : Describes ms o) : Options.parse text = .ok o := by
  rw [Options.parse]
  generalize text.toList = cs at h
  obtain @⟨before, inside, after, hbefore, hitems, hafter⟩ := h
  have hread : readOptions (before ++ '\x7b' :: (inside ++ '\x7d' :: after)) = .ok (o, after) := by
    rw [readOptions, skipSpace_append hbefore, skipSpace_cons (by decide)]
    exact readMembers_items hitems hdistinct hdescribes
  have hend : skipSpace after = [] := by
    rw [← List.append_nil after, skipSpace_append hafter]
    rfl
  rw [hread, ok_bind]
  simp only [hend]

/-! ## §4. Layouts. -/

/-- A layout that puts nothing but space between the pieces. -/
structure JsonLayout.IsBlank (layout : JsonLayout) : Prop where
  afterColon : IsSpaces layout.afterColon.toList
  lineBreak : ∀ depth, IsSpaces (layout.lineBreak depth).toList

theorem isBlank_compact : JsonLayout.compact.IsBlank := by
  constructor
  · exact isSpaces_nil
  · exact fun _ => isSpaces_nil

theorem isBlank_pretty : JsonLayout.pretty.IsBlank := by
  constructor
  · intro c hc
    obtain rfl : c = ' ' := by simpa [JsonLayout.pretty] using hc
    rfl
  · intro depth c hc
    simp only [JsonLayout.pretty, String.toList_append, String.toList_ofList,
      List.mem_append, List.mem_replicate] at hc
    obtain hc | ⟨-, rfl⟩ := hc
    · obtain rfl : c = '\n' := by simpa using hc
      rfl
    · rfl

section Lists

variable {α : Type} {writes : α → List Char → Prop} {shown : α → String}

/-- Items with commas between them, the same space before each of them and any space after
    the last. -/
theorem listed_intercalate {lead final : String} (hlead : IsSpaces lead.toList)
    (hfinal : IsSpaces final.toList)
    (hwrites : ∀ x before after, IsSpaces before → IsSpaces after →
      writes x (before ++ ((shown x).toList ++ after)))
    (x : α) (xs : List α) :
    Listed writes (x :: xs) (lead.toList
      ++ ((("," ++ lead).intercalate ((x :: xs).map shown)).toList ++ final.toList)) := by
  induction xs generalizing x with
  | nil =>
    rw [List.map_singleton, String.intercalate_singleton]
    exact .last (hwrites x _ _ hlead hfinal)
  | cons y ys ih =>
    have hitem : writes x (lead.toList ++ ((shown x).toList ++ [])) :=
      hwrites x _ _ hlead isSpaces_nil
    have hcons := Listed.cons hitem (ih y)
    rw [List.map_cons, List.map_cons, String.intercalate_cons_cons]
    simpa using hcons

theorem items_enclose {layout : JsonLayout} (hblank : layout.IsBlank) (depth : Nat)
    (opening closing : String)
    (hwrites : ∀ x before after, IsSpaces before → IsSpaces after →
      writes x (before ++ ((shown x).toList ++ after))) (xs : List α) :
    ∃ text, Items writes xs text ∧ (layout.enclose depth opening closing (xs.map shown)).toList
      = opening.toList ++ (text ++ closing.toList) := by
  cases xs with
  | nil => exact ⟨[], .none isSpaces_nil, by simp [JsonLayout.enclose]⟩
  | cons x xs =>
    refine ⟨_, .some (listed_intercalate (hblank.lineBreak (depth + 1)) (hblank.lineBreak depth)
      hwrites x xs), ?_⟩
    simp [JsonLayout.enclose]

end Lists

/-! ## §5. Written objects. -/

theorem isString_quote (s : String) : IsString true s.toList (quote s).toList := by
  rw [quote, String.toList_ofList]
  exact .quoted (spelling_escape s.toList)

def writeMember (layout : JsonLayout) (m : Member) : String :=
  quote m.key ++ ":" ++ layout.afterColon ++ String.ofList m.value

/-- Members as JSON text of an object. -/
def writeObject (layout : JsonLayout) (ms : List Member) : String :=
  layout.enclose 0 "\x7b" "\x7d" (ms.map (writeMember layout))

variable {layout : JsonLayout}

theorem writesMember_writeMember (hblank : layout.IsBlank) (m : Member) {before after : List Char}
    (hbefore : IsSpaces before) (hafter : IsSpaces after) :
    WritesMember true m (before ++ ((writeMember layout m).toList ++ after)) := by
  have hmember := WritesMember.pieces hbefore (isString_quote m.key) isSpaces_nil
    (Padded.spaces hblank.afterColon hafter)
  simpa [writeMember] using hmember

theorem isObject_writeObject (hblank : layout.IsBlank) (ms : List Member) :
    IsObject ms (writeObject layout ms).toList := by
  obtain ⟨text, hitems, heq⟩ := items_enclose hblank 0 "\x7b" "\x7d"
    (fun m _ _ hbefore hafter => writesMember_writeMember hblank m hbefore hafter) ms
  rw [writeObject, heq]
  exact .braces isSpaces_nil hitems isSpaces_nil

/-! ## §6. Written options. -/

theorem spellsValue_choice (b : Option Bool) :
    SpellsValue (.inl b) (printChoice b).toList := by
  match b with
  | none => exact .null
  | some true => exact .yes
  | some false => exact .no

theorem spellsValue_names (hblank : layout.IsBlank) (names : List String) :
    SpellsValue (.inr names) (layout.enclose 1 "[" "]" (names.map quote)).toList := by
  obtain ⟨text, hitems, heq⟩ := items_enclose hblank 1 "[" "]"
    (fun name _ _ hbefore hafter =>
      WritesName.padded (isString_quote name) (.spaces hbefore hafter)) names
  rw [heq]
  exact .names hitems

theorem spellsValue_print (hblank : layout.IsBlank) (o : Options) (f : OptionField) :
    SpellsValue (f.value o) (f.print layout o).toList := by
  cases f with
  | preserveNames => exact spellsValue_names hblank o.preserveNames
  | _ => exact spellsValue_choice _

theorem writesFields_print (hblank : layout.IsBlank) (o : Options) :
    WritesFields o (o.print layout) := by
  refine ⟨fun f => (f.print layout o).toList, spellsValue_print hblank o, ?_⟩
  have hprint : o.print layout = writeObject layout
      (OptionField.all.map fun f => ⟨f.key, (f.print layout o).toList⟩) := by
    simp [Options.print, writeObject, writeMember, Function.comp_def]
  rw [hprint]
  exact isObject_writeObject hblank _

/-- A choice that is left open is written as well, and a line break in a name is escaped. -/
example : (⟨some false, none, ["a\n"], none⟩ : Options).print .compact
    = "\x7b\"rename\":false,\"namingConvention\":null,\"preserveNames\":[\"a\\n\"],"
      ++ "\"escapeNewlines\":null\x7d" := by
  decide +kernel

/-! ## §7. Promises. -/

/-- **The stand-in reads and writes as a library must.** -/
theorem standIn_lawful : OptionsFormat.standIn.Lawful where
  reads ms o text hobject hcollects := by
    obtain ⟨hdistinct, hdescribes⟩ := collects_iff.1 hcollects
    show (Options.parse text).mapError Fault.name = _
    rw [parse_of_describes hobject hdistinct hdescribes]
    rfl
  writes_compact := writesFields_print isBlank_compact
  writes_pretty := writesFields_print isBlank_pretty

end GlslMinifier
