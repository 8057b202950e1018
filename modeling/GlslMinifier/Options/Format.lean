/-
  GlslMinifier.Options.Format — options as text.

  A run takes its options from a text, and a caller may write them as one.  Both are the work
  of a JSON library, which is no part of this development.  It is known here by what it
  promises (`OptionsFormat.Lawful`): it reads an object one member after the other, and it
  writes an object of all fields.  What it says about a text that it refuses is its own.
-/
import GlslMinifier.Json.Grammar
import GlslMinifier.Options.Basic

namespace GlslMinifier

open Json

/-- A library that reads options from texts and writes them as texts. -/
structure OptionsFormat where
  /-- The options that a text gives, or the words of the library on why it gives none. -/
  read : (text : String) → Except String Options
  /-- Options without white space. -/
  compact : Options → String
  /-- Options with one item a line. -/
  pretty : Options → String

/-! ## §1. Values of fields. -/

namespace OptionField

/-- The value of a field: a choice, or a list of names. -/
def value (o : Options) : OptionField → Option Bool ⊕ List String
  | rename => .inl o.rename
  | namingConvention => .inl o.namingConvention
  | preserveNames => .inr o.preserveNames
  | escapeNewlines => .inl o.escapeNewlines

/-- The options `o` with the value that a field has in `source`. -/
def copy (source o : Options) : OptionField → Options
  | rename => { o with rename := source.rename }
  | namingConvention => { o with namingConvention := source.namingConvention }
  | preserveNames => { o with preserveNames := source.preserveNames }
  | escapeNewlines => { o with escapeNewlines := source.escapeNewlines }

end OptionField

/-- The text of a name in a list. -/
inductive WritesName (name : String) : List Char → Prop
  | padded {v t : List Char} : IsString true name.toList v → Padded v t → WritesName name t

/-- A JSON text of a value of a field, without space around it. -/
inductive SpellsValue : Option Bool ⊕ List String → List Char → Prop
  | null : SpellsValue (.inl none) ['n', 'u', 'l', 'l']
  | yes : SpellsValue (.inl (some true)) ['t', 'r', 'u', 'e']
  | no : SpellsValue (.inl (some false)) ['f', 'a', 'l', 's', 'e']
  | names {names : List String} {text : List Char} : Items WritesName names text →
      SpellsValue (.inr names) ('[' :: (text ++ [']']))

/-! ## §2. What the library promises. -/

/-- Reading the members one after the other comes to the options. -/
inductive Collects : List Member → Options → Prop
  /-- A field that no member gives has its default. -/
  | nothing : Collects [] .default
  /-- A member with the key of a field sets the field, if none before it does. -/
  | field {ms : List Member} {m : Member} {o source : Options} {f : OptionField} :
      Collects ms o → (∀ m' ∈ ms, m'.key ≠ f.key) → m.key = f.key →
      SpellsValue (f.value source) m.value → Collects (ms ++ [m]) (f.copy source o)
  /-- A member with another key is passed over, whatever its value. -/
  | other {ms : List Member} {m : Member} {o : Options} : Collects ms o →
      (∀ f : OptionField, m.key ≠ f.key) → IsValue m.value → Collects (ms ++ [m]) o

/-- `text` is an object of all fields in order, each with a text of its value in `o`. -/
def WritesFields (o : Options) (text : String) : Prop :=
  ∃ spelled : OptionField → List Char, (∀ f, SpellsValue (f.value o) (spelled f))
    ∧ IsObject (OptionField.all.map fun f => ⟨f.key, spelled f⟩) text.toList

/-- What is relied on of a library: how it reads an object whose members it accepts, and how
    it writes options. -/
structure OptionsFormat.Lawful (format : OptionsFormat) : Prop where
  reads : ∀ (ms : List Member) (o : Options) (text : String), IsObject ms text.toList →
    Collects ms o → format.read text = .ok o
  writes_compact : ∀ o, WritesFields o (format.compact o)
  writes_pretty : ∀ o, WritesFields o (format.pretty o)

end GlslMinifier
