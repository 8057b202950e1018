/-
  GlslMinifier.NameSet — finite sets of names and maps from names.

  Both are kept sorted by code point and are equal as soon as they have the same members,
  so equality of two analyses is equality of values.
-/
import Std.Data.ExtTreeSet.Lemmas
import Std.Data.ExtTreeMap.Lemmas

namespace GlslMinifier

/-- A finite set of names. -/
abbrev NameSet := Std.ExtTreeSet String

/-- A finite map from names. -/
abbrev NameMap (α : Type) := Std.ExtTreeMap String α

/-- The names of a list. -/
def NameSet.ofNames (names : List String) : NameSet := Std.ExtTreeSet.ofList names

@[simp] theorem NameSet.mem_ofNames {names : List String} {name : String} :
    name ∈ NameSet.ofNames names ↔ name ∈ names := by
  simp [NameSet.ofNames, Std.ExtTreeSet.mem_ofList]

/-- How often each name occurs in a list. -/
def NameMap.tally (names : List String) : NameMap Nat :=
  names.foldl (fun counts name => counts.alter name fun n? => some (n?.getD 0 + 1)) ∅

/-- Adds up two tallies. -/
def NameMap.sum (a b : NameMap Nat) : NameMap Nat := a.mergeWith (fun _ m n => m + n) b

end GlslMinifier
