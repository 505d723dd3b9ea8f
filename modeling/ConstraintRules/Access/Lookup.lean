import ConstraintRules.Access.Categories

/-! Lookups: the search of an active occurrence for one partner, by key or
directly in an array. -/

namespace ConstraintRules

/-- Constant-time access through an argument with a known number of values. -/
structure DirectAccess where
  position : Nat
  domainSize : Nat
deriving DecidableEq

structure Lookup where
  partner : OccurrenceId
  path : AccessPath
  /-- The category of the path among those of the partner's constraint. -/
  category : CategoryId
  direct : Option DirectAccess
deriving DecidableEq

inductive Side where
  | left
  | right
deriving DecidableEq

namespace Side

def opposite : Side → Side
  | left => right
  | right => left

def toNat : Side → Nat
  | left => 0
  | right => 1

def ofNat? : Nat → Option Side
  | 0 => some left
  | 1 => some right
  | _ => none

end Side

/-- An argument of a head: the occurrence's place in the head and the argument position. -/
structure HeadArg where
  head : Nat
  argument : Nat
deriving DecidableEq

/-- A guard equality between arguments of a head. -/
structure HeadLink where
  /-- The place of the equality in the guard. -/
  guard : Nat
  left : HeadArg
  right : HeadArg
deriving DecidableEq

namespace HeadLink

def arg (l : HeadLink) : Side → HeadArg
  | .left => l.left
  | .right => l.right

/-- The side that belongs to a place of the head, the left one first. -/
def sideOf? (l : HeadLink) (head : Nat) : Option Side :=
  if l.left.head = head then some .left
  else if l.right.head = head then some .right
  else none

end HeadLink

end ConstraintRules
