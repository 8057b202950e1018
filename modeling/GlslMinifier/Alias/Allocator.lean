/-
  GlslMinifier.Alias.Allocator — handing out aliases.

  Aliases are handed out in the order of their words; reserved names are passed over.
-/
import GlslMinifier.Alias.Word

namespace GlslMinifier

/-- The first position from `position` on whose word is not reserved, or the one after
    `budget` reserved words. -/
def firstFreeWithin (reserved : List String) : (budget position : Nat) → Nat
  | 0, position => position
  | budget + 1, position =>
    if reserved.contains (word position) then
      firstFreeWithin reserved budget (position + 1)
    else position

/-- The first position from `position` on whose word is not reserved.  At most as many
    words are passed over as there are reserved names. -/
def firstFree (reserved : List String) (position : Nat) : Nat :=
  firstFreeWithin reserved reserved.length position

/-- A supply of aliases. -/
structure Allocator where
  /-- Where to look for the next alias; words before it are used up. -/
  next : Nat
  /-- Names that no later alias may take. -/
  reserved : List String
  deriving DecidableEq, Repr

namespace Allocator

def empty : Allocator := ⟨0, []⟩

/-- Keeps names from being handed out. -/
def reserve (a : Allocator) (names : List String) : Allocator :=
  { a with reserved := a.reserved ++ names }

/-- The next alias, and the supply after it. -/
def take (a : Allocator) : String × Allocator :=
  let position := firstFree a.reserved a.next
  (word position, { a with next := position + 1 })

/-- The next `count` aliases, and the supply after them. -/
def takeMany (a : Allocator) : (count : Nat) → List String × Allocator
  | 0 => ([], a)
  | count + 1 =>
    let first := a.take
    let later := first.2.takeMany count
    (first.1 :: later.1, later.2)

end Allocator

end GlslMinifier
