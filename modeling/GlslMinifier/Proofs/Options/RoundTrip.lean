/-
  GlslMinifier.Proofs.Options.RoundTrip — options are read back from what is written.

  What a library writes is an object of all four fields; so it is one of many texts that
  describe the same options, and reads as each of them does.

  Main results:
    * `read_of_describes` — an object gives the options that its members describe
    * `read_written` — the options of all fields are read back
    * `read_written_and_rearranged` — reading undoes writing in both layouts, and no other
      arrangement of the members or of members with other keys makes a difference
-/
import GlslMinifier.Proofs.Options.StandIn

namespace GlslMinifier

open Json

/-! ## §1. What a library reads. -/

section

variable {format : OptionsFormat} {ms : List Member} {o : Options} {text : String}

theorem read_of_describes (h : format.Lawful) (hobject : IsObject ms text.toList)
    (hdistinct : (givenFields ms).Nodup) (hdescribes : Describes ms o) :
    format.read text = .ok o :=
  h.reads ms o text hobject (collects_iff.2 ⟨hdistinct, hdescribes⟩)

theorem givenFields_keys (fields : List OptionField) (spelled : OptionField → List Char) :
    givenFields (fields.map fun f => ⟨f.key, spelled f⟩) = fields := by
  simp [givenFields, List.filterMap_map, OptionField.ofKey?_key]

theorem mem_all (f : OptionField) : f ∈ OptionField.all := by
  cases f <;> decide

theorem read_written (h : format.Lawful) (hwritten : WritesFields o text) :
    format.read text = .ok o := by
  obtain ⟨spelled, hspelled, hobject⟩ := hwritten
  have hgiven := givenFields_keys OptionField.all spelled
  refine read_of_describes h hobject (by rw [hgiven]; decide) ⟨?_, ?_⟩
  · intro m hm
    obtain ⟨f, -, rfl⟩ := List.mem_map.1 hm
    exact .known rfl (hspelled f)
  · intro f hf
    rw [hgiven] at hf
    exact absurd (mem_all f) hf

end

/-! ## §2. Round trip. -/

/-- **Options are read back from both layouts.  An object whose known keys are distinct and
    well typed gives the options that its members describe, in any order, in any spelling,
    and beside members with other keys and any values.** -/
theorem read_written_and_rearranged (format : OptionsFormat) (h : format.Lawful) :
    (∀ o : Options, format.read (format.compact o) = .ok o
      ∧ format.read (format.pretty o) = .ok o)
    ∧ ∀ (ms extra ms' : List Member) (text text' : String), WellTyped ms →
      (∀ m ∈ extra, (∀ f : OptionField, m.key ≠ f.key) ∧ IsValue m.value) →
      (ms ++ extra).Perm ms' → IsObject ms text.toList → IsObject ms' text'.toList →
      ∃ o, Describes ms o ∧ format.read text = .ok o ∧ format.read text' = .ok o := by
  constructor
  · intro o
    exact ⟨read_written h (h.writes_compact o), read_written h (h.writes_pretty o)⟩
  · intro ms extra ms' text text' hms hextra hperm htext htext'
    have hkeys : ∀ m ∈ extra, ∀ f : OptionField, m.key ≠ f.key := fun m hm => (hextra m hm).1
    obtain ⟨o, ho⟩ := exists_describes hms
    have ho' : Describes ms' o :=
      describes_perm (describes_extra ho hkeys fun m hm => (hextra m hm).2) hperm
    have hdistinct : (givenFields ms').Nodup := by
      rw [← (givenFields_perm hperm).nodup_iff, givenFields_extra hkeys]
      exact hms.distinct
    exact ⟨o, ho, read_of_describes h htext hms.distinct ho,
      read_of_describes h htext' hdistinct ho'⟩

def renameMember : Member := ⟨"rename", ['f', 'a', 'l', 's', 'e']⟩

/-- A member with another key, whose value is an object that holds an array. -/
def nestedMember : Member :=
  ⟨"x", ['\x7b', '"', 'y', '"', ':', '[', '1', ']', '\x7d']⟩

theorem isValue_nested : IsValue nestedMember.value := by
  have hone : SpellsNumeral (['1'] ++ ([] ++ [])) :=
    .parts ⟨⟨by decide, List.forall_mem_singleton.2 (by decide)⟩, by decide⟩ .none .none
  have harray : IsValue ('[' :: (([] ++ (['1'] ++ [])) ++ [']'])) := by
    refine .array (.some (.last (.spaces isSpaces_nil isSpaces_nil))) ?_
    intro v hv
    obtain rfl := List.mem_singleton.1 hv
    exact .scalar (.positive hone)
  have hkey : IsString false "y".toList ('"' :: (['y'] ++ ['"'])) :=
    .quoted (spelling_self (List.forall_mem_singleton.2 (by decide)))
  have hmember := @WritesMember.pieces false ⟨"y", ['[', '1', ']']⟩ _ _ _ _ isSpaces_nil hkey
    isSpaces_nil (.spaces isSpaces_nil isSpaces_nil)
  refine .object (.some (.last hmember)) ?_
  intro m hm
  obtain rfl := List.mem_singleton.1 hm
  exact harray

theorem wellTyped_rename : WellTyped [renameMember] := by
  constructor
  · decide
  · intro m hm
    obtain rfl := List.mem_singleton.1 hm
    exact ⟨⟨some false, none, [], none⟩, .known (f := .rename) rfl .no⟩

theorem isObject_rename : IsObject [renameMember] "\x7b\"rename\":false\x7d".toList := by
  have htext : writeObject .compact [renameMember] = "\x7b\"rename\":false\x7d" := by
    decide +kernel
  rw [← htext]
  exact isObject_writeObject isBlank_compact _

theorem isObject_nested : IsObject [nestedMember, renameMember]
    "\x7b\n  \"x\": \x7b\"y\":[1]\x7d,\n  \"rename\": false\n\x7d".toList := by
  have htext : writeObject .pretty [nestedMember, renameMember]
      = "\x7b\n  \"x\": \x7b\"y\":[1]\x7d,\n  \"rename\": false\n\x7d" := by
    decide +kernel
  rw [← htext]
  exact isObject_writeObject isBlank_pretty _

theorem read_past_nested_member :
    OptionsFormat.standIn.Lawful ∧ WellTyped [renameMember]
      ∧ (∀ m ∈ [nestedMember], (∀ f : OptionField, m.key ≠ f.key) ∧ IsValue m.value)
      ∧ ∃ o, Describes [renameMember] o
        ∧ OptionsFormat.standIn.read "\x7b\"rename\":false\x7d" = .ok o
        ∧ OptionsFormat.standIn.read
          "\x7b\n  \"x\": \x7b\"y\":[1]\x7d,\n  \"rename\": false\n\x7d" = .ok o := by
  have hextra : ∀ m ∈ [nestedMember], (∀ f : OptionField, m.key ≠ f.key) ∧ IsValue m.value :=
    List.forall_mem_singleton.2
      ⟨OptionField.ofKey?_eq_none_iff.1 (by decide), isValue_nested⟩
  refine ⟨standIn_lawful, wellTyped_rename, hextra, ?_⟩
  exact (read_written_and_rearranged OptionsFormat.standIn standIn_lawful).2 [renameMember]
    [nestedMember] [nestedMember, renameMember] _ _ wellTyped_rename hextra (.swap _ _ [])
    isObject_rename isObject_nested

end GlslMinifier
