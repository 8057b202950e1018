/-
  GlslMinifier.Proofs.Options.Members — options from the members of an object.

  Which options an object gives is told from its members alone (`Describes`): each field has
  the value that a member gives it, or else its default.  A library goes through the members
  in order (`Collects`) and comes to the options that they describe, so their order does not
  matter, and members with other keys count for nothing.

  Main results:
    * `collects_iff` — going through distinct members comes to what they describe
    * `exists_describes` — distinct, well typed members describe options
    * `describes_perm`, `describes_extra` — in any order, and beside members with other keys
-/
import GlslMinifier.Options.Format
import Mathlib.Data.List.Induction
import Mathlib.Data.List.Nodup

namespace GlslMinifier

open Json

/-! ## §1. Fields. -/

namespace OptionField

/-- The value of a field that is not given: no choice, and no names. -/
def unset : OptionField → Option Bool ⊕ List String
  | rename => .inl none
  | namingConvention => .inl none
  | preserveNames => .inr []
  | escapeNewlines => .inl none

theorem value_default (f : OptionField) : f.value .default = f.unset := by
  cases f <;> rfl

theorem value_copy (source o : Options) (f g : OptionField) :
    g.value (f.copy source o) = if g = f then g.value source else g.value o := by
  cases f <;> cases g <;> rfl

theorem ofKey?_key (f : OptionField) : ofKey? f.key = some f := by
  cases f <;> decide

theorem ofKey?_eq_some_iff {key : String} {f : OptionField} :
    ofKey? key = some f ↔ key = f.key := by
  constructor
  · intro h
    have hkey := List.find?_some h
    exact (eq_of_beq hkey).symm
  · rintro rfl
    exact ofKey?_key f

theorem ofKey?_eq_none_iff {key : String} : ofKey? key = none ↔ ∀ f : OptionField, key ≠ f.key := by
  rw [Option.eq_none_iff_forall_ne_some]
  exact forall_congr' fun f => not_congr ofKey?_eq_some_iff

end OptionField

theorem options_ext {o o' : Options} (h : ∀ f : OptionField, f.value o = f.value o') : o = o' := by
  have hrename := h .rename
  have hconvention := h .namingConvention
  have hnames := h .preserveNames
  have hescape := h .escapeNewlines
  cases o
  cases o'
  simp_all [OptionField.value]

/-! ## §2. What members describe. -/

/-- A member agrees with the options: it gives a field the value that it has there, or it has
    another key and any value. -/
inductive Agrees (o : Options) (m : Member) : Prop
  | known {f : OptionField} : m.key = f.key → SpellsValue (f.value o) m.value → Agrees o m
  | unknown : (∀ f : OptionField, m.key ≠ f.key) → IsValue m.value → Agrees o m

/-- The fields that the members give, in order. -/
def givenFields (ms : List Member) : List OptionField :=
  ms.filterMap (OptionField.ofKey? ·.key)

/-- The members of an object whose known keys are distinct and have values of their types,
    and whose other keys have any values. -/
structure WellTyped (ms : List Member) : Prop where
  distinct : (givenFields ms).Nodup
  typed : ∀ m ∈ ms, ∃ o, Agrees o m

/-- The options are those that the members give, and the other fields are unset. -/
structure Describes (ms : List Member) (o : Options) : Prop where
  agrees : ∀ m ∈ ms, Agrees o m
  absent : ∀ f : OptionField, f ∉ givenFields ms → f.value o = f.unset

variable {ms extra ms' : List Member} {m : Member} {o : Options} {f : OptionField}

theorem mem_givenFields_iff : f ∈ givenFields ms ↔ ∃ m ∈ ms, m.key = f.key := by
  simp only [givenFields, List.mem_filterMap, OptionField.ofKey?_eq_some_iff]

theorem not_mem_givenFields_iff : f ∉ givenFields ms ↔ ∀ m ∈ ms, m.key ≠ f.key := by
  simp only [mem_givenFields_iff, not_exists, not_and, ne_eq]

theorem givenFields_known (h : m.key = f.key) : givenFields [m] = [f] :=
  List.filterMap_cons_some (OptionField.ofKey?_eq_some_iff.2 h)

theorem givenFields_unknown (h : ∀ f : OptionField, m.key ≠ f.key) : givenFields [m] = [] :=
  List.filterMap_cons_none (OptionField.ofKey?_eq_none_iff.2 h)

theorem givenFields_append (ms extra : List Member) :
    givenFields (ms ++ extra) = givenFields ms ++ givenFields extra :=
  List.filterMap_append

theorem nodup_known (h : m.key = f.key) :
    (givenFields (ms ++ [m])).Nodup ↔ f ∉ givenFields ms ∧ (givenFields ms).Nodup := by
  rw [givenFields_append, givenFields_known h, ← List.concat_eq_append, List.nodup_concat]

theorem agrees_of_value_eq {o' : Options} (h : Agrees o m)
    (heq : ∀ f : OptionField, m.key = f.key → f.value o' = f.value o) : Agrees o' m := by
  cases h with
  | known hkey hvalue => exact .known hkey (heq _ hkey ▸ hvalue)
  | unknown hkey hvalue => exact .unknown hkey hvalue

/-- Another value of a field that is not given is as good. -/
theorem agrees_copy {source : Options} (h : ∀ m ∈ ms, Agrees o m) (hf : f ∉ givenFields ms) :
    ∀ m ∈ ms, Agrees (f.copy source o) m := by
  intro m hm
  refine agrees_of_value_eq (h m hm) fun g hg => ?_
  rw [OptionField.value_copy, if_neg]
  rintro rfl
  exact hf (mem_givenFields_iff.2 ⟨m, hm, hg⟩)

/-! ## §3. One more member. -/

theorem describes_nil : Describes [] .default := by
  constructor
  · exact fun m hm => absurd hm List.not_mem_nil
  · exact fun f _ => f.value_default

theorem describes_known {source : Options} (h : Describes ms o) (hf : f ∉ givenFields ms)
    (hkey : m.key = f.key) (hvalue : SpellsValue (f.value source) m.value) :
    Describes (ms ++ [m]) (f.copy source o) := by
  constructor
  · intro m' hm'
    obtain hm' | hm' := List.mem_append.1 hm'
    · exact agrees_copy h.agrees hf m' hm'
    · obtain rfl := List.mem_singleton.1 hm'
      exact .known hkey (by rwa [OptionField.value_copy, if_pos rfl])
  · intro g hg
    rw [givenFields_append, givenFields_known hkey, List.mem_append, List.mem_singleton,
      not_or] at hg
    rw [OptionField.value_copy, if_neg hg.2]
    exact h.absent g hg.1

theorem givenFields_extra (hextra : ∀ m ∈ extra, ∀ f : OptionField, m.key ≠ f.key) :
    givenFields (ms ++ extra) = givenFields ms := by
  have hnone : givenFields extra = [] :=
    List.filterMap_eq_nil_iff.2 fun m hm => OptionField.ofKey?_eq_none_iff.2 (hextra m hm)
  rw [givenFields_append, hnone, List.append_nil]

theorem describes_extra (h : Describes ms o)
    (hkeys : ∀ m ∈ extra, ∀ f : OptionField, m.key ≠ f.key)
    (hvalues : ∀ m ∈ extra, IsValue m.value) : Describes (ms ++ extra) o := by
  constructor
  · intro m hm
    obtain hm | hm := List.mem_append.1 hm
    · exact h.agrees m hm
    · exact .unknown (hkeys m hm) (hvalues m hm)
  · rw [givenFields_extra hkeys]
    exact h.absent

theorem exists_describes (h : WellTyped ms) : ∃ o, Describes ms o := by
  obtain ⟨hdistinct, htyped⟩ := h
  induction ms using List.reverseRecOn with
  | nil => exact ⟨.default, describes_nil⟩
  | append_singleton ms m ih =>
    have hbefore : ∀ m' ∈ ms, ∃ o, Agrees o m' := fun m' hm' =>
      htyped m' (List.mem_append_left _ hm')
    obtain ⟨source, hm⟩ := htyped m (List.mem_append_right _ List.mem_cons_self)
    cases hm with
    | @known f hkey hvalue =>
      obtain ⟨hf, hdistinct⟩ := (nodup_known hkey).1 hdistinct
      obtain ⟨o, ho⟩ := ih hdistinct hbefore
      exact ⟨f.copy source o, describes_known ho hf hkey hvalue⟩
    | unknown hkey hvalue =>
      have hextra : ∀ m' ∈ [m], ∀ f : OptionField, m'.key ≠ f.key :=
        List.forall_mem_singleton.2 hkey
      rw [givenFields_extra hextra] at hdistinct
      obtain ⟨o, ho⟩ := ih hdistinct hbefore
      exact ⟨o, describes_extra ho hextra (List.forall_mem_singleton.2 hvalue)⟩

/-! ## §4. Going through the members. -/

theorem describes_of_collects (h : Collects ms o) : (givenFields ms).Nodup ∧ Describes ms o := by
  induction h with
  | nothing => exact ⟨List.nodup_nil, describes_nil⟩
  | field _ hnew hkey hvalue ih =>
    have hf := not_mem_givenFields_iff.2 hnew
    exact ⟨(nodup_known hkey).2 ⟨hf, ih.1⟩, describes_known ih.2 hf hkey hvalue⟩
  | @other ms m o _ hkey hvalue ih =>
    have hextra : ∀ m' ∈ [m], ∀ f : OptionField, m'.key ≠ f.key :=
      List.forall_mem_singleton.2 hkey
    rw [givenFields_extra hextra]
    exact ⟨ih.1, describes_extra ih.2 hextra (List.forall_mem_singleton.2 hvalue)⟩

/-- The options before the last member, which gives the field `f`: it is unset there. -/
theorem describes_before (h : Describes (ms ++ [m]) o) (hkey : m.key = f.key)
    (hf : f ∉ givenFields ms) : Describes ms (f.copy .default o) := by
  constructor
  · exact agrees_copy (fun m' hm' => h.agrees m' (List.mem_append_left _ hm')) hf
  · intro g hg
    rw [OptionField.value_copy]
    split
    · exact g.value_default
    · next hne =>
      apply h.absent
      rw [givenFields_append, givenFields_known hkey, List.mem_append, List.mem_singleton]
      exact not_or.2 ⟨hg, hne⟩

theorem copy_copy_default : f.copy o (f.copy .default o) = o := by
  apply options_ext
  intro g
  rw [OptionField.value_copy, OptionField.value_copy]
  split <;> simp_all

theorem collects_of_describes (hdistinct : (givenFields ms).Nodup) (h : Describes ms o) :
    Collects ms o := by
  induction ms using List.reverseRecOn generalizing o with
  | nil =>
    obtain rfl : o = .default :=
      options_ext fun f => (h.absent f List.not_mem_nil).trans f.value_default.symm
    exact .nothing
  | append_singleton ms m ih =>
    cases h.agrees m (List.mem_append_right _ List.mem_cons_self) with
    | @known f hkey hvalue =>
      obtain ⟨hf, hdistinct⟩ := (nodup_known hkey).1 hdistinct
      have hcollects := Collects.field (ih hdistinct (describes_before h hkey hf))
        (not_mem_givenFields_iff.1 hf) hkey hvalue
      rwa [copy_copy_default] at hcollects
    | unknown hkey hvalue =>
      have hsame : givenFields (ms ++ [m]) = givenFields ms :=
        givenFields_extra (List.forall_mem_singleton.2 hkey)
      have habsent := h.absent
      rw [hsame] at hdistinct habsent
      exact .other (ih hdistinct ⟨fun m' hm' => h.agrees m' (List.mem_append_left _ hm'), habsent⟩)
        hkey hvalue

/-- **Going through the members comes to the options that they describe**, and only if their
    known keys are distinct. -/
theorem collects_iff : Collects ms o ↔ (givenFields ms).Nodup ∧ Describes ms o :=
  ⟨describes_of_collects, fun h => collects_of_describes h.1 h.2⟩

/-! ## §5. Rearranged members. -/

theorem givenFields_perm (h : ms.Perm ms') : (givenFields ms).Perm (givenFields ms') :=
  h.filterMap _

theorem describes_perm (h : Describes ms o) (hperm : ms.Perm ms') : Describes ms' o := by
  constructor
  · intro m hm
    exact h.agrees m (hperm.mem_iff.2 hm)
  · intro f hf
    exact h.absent f fun hmem => hf ((givenFields_perm hperm).mem_iff.1 hmem)

end GlslMinifier
