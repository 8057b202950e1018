/-
  GlslMinifier.Filter — names kept by choice.

  A filter claims names that are to keep their spelling although they could be respelled.
  It sees the name and the number of its rename sites, and nothing else.
-/
import GlslMinifier.Identifier
import GlslMinifier.Survey

namespace GlslMinifier

/-- A name that could be respelled. -/
structure Candidate where
  name : String
  /-- Number of rename sites that spell the name. -/
  sites : Nat
  deriving DecidableEq, Repr

/-- Claims the candidates that are to keep their spelling. -/
abbrev Filter := Candidate → Bool

namespace Filter

/-- Claims what one of the filters claims; nothing if there are none. -/
def anyOf (filters : List Filter) : Filter := fun c => filters.any (· c)

/-- Claims names in one of the two naming conventions. -/
def namingConvention : Filter := fun c => isPrefixedCamel c.name || isConstantLike c.name

/-- Claims the listed names. -/
def preserve (names : List String) : Filter := fun c => names.contains c.name

/-- Claims protected names. -/
def protecting (names : ProtectedNames) : Filter := fun c => names.contains c.name

/-- Claims names of more than `size` bytes. -/
def longerThan (size : Nat) : Filter := fun c => decide (size < c.name.utf8ByteSize)

/-- Claims names with at least `count` rename sites. -/
def sitesAtLeast (count : Nat) : Filter := fun c => decide (count ≤ c.sites)

end Filter

end GlslMinifier
