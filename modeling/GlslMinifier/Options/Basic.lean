/-
  GlslMinifier.Options.Basic — what a user can choose.
-/
import GlslMinifier.Filter
import GlslMinifier.Segment

namespace GlslMinifier

/-- Choices of a run.  An absent choice means yes. -/
structure Options where
  /-- Give names short aliases. -/
  rename : Option Bool
  /-- Keep names that follow one of the naming conventions. -/
  namingConvention : Option Bool
  /-- Further names that must keep their spelling. -/
  preserveNames : List String
  /-- Write line breaks of the result as escapes. -/
  escapeNewlines : Option Bool
  deriving DecidableEq, Repr

/-- An entry of `preserveNames` that no identifier can be spelled like. -/
structure InvalidName where
  name : String
  deriving DecidableEq, Repr

/-- What is wrong with a name that is no identifier. -/
def notAnIdentifier (name : String) : String :=
  "\x60" ++ name ++ "\x60 is not a valid identifier"

def InvalidName.message (e : InvalidName) : String :=
  "invalid entry in \x60preserveNames\x60: " ++ notAnIdentifier e.name

/-- A field of the options. -/
inductive OptionField
  | rename
  | namingConvention
  | preserveNames
  | escapeNewlines
  deriving DecidableEq, Repr

namespace OptionField

/-- The fields in order. -/
def all : List OptionField := [rename, namingConvention, preserveNames, escapeNewlines]

/-- The key of a field in a text. -/
def key : OptionField → String
  | rename => "rename"
  | namingConvention => "namingConvention"
  | preserveNames => "preserveNames"
  | escapeNewlines => "escapeNewlines"

/-- The field that a key names. -/
def ofKey? (key : String) : Option OptionField := all.find? (·.key == key)

end OptionField

namespace Options

def default : Options := ⟨none, none, [], none⟩

def renames (o : Options) : Bool := o.rename.getD true

def keepsConventions (o : Options) : Bool := o.namingConvention.getD true

def escapes (o : Options) : Bool := o.escapeNewlines.getD true

/-- What stands between two lines of the result. -/
def separator (o : Options) : String := if o.escapes then escapedNewline else "\n"

/-- The first preserved name that is no identifier. -/
def invalidName? (o : Options) : Option InvalidName :=
  (o.preserveNames.find? (!isIdentifier ·)).map .mk

/-- The filter that the options ask for beside `plugins`. -/
def filter (o : Options) (plugins : List Filter) : Filter :=
  .anyOf (plugins ++ [.preserve o.preserveNames]
    ++ if o.keepsConventions then [.namingConvention] else [])

end Options

end GlslMinifier
