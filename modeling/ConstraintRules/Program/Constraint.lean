import ConstraintRules.Access.Categories

/-! Constraints: the declaration of a constraint, its occurrences in rule heads,
and what the passes note about it. -/

namespace ConstraintRules

/-- Declaration modifiers. An exported constraint can be called and observed by foreign code; a
reactive one is activated again when one of its arguments is modified. -/
structure Modifiers where
  isPrivate : Bool := false
  isLocal : Bool := false
  exported : Bool := false
  reactive : Bool := false
deriving DecidableEq

/-- The type of an argument, as far as indexing cares. -/
inductive ArgType where
  | bool
  /-- An enumeration with a known number of constants. -/
  | enum (variants : Nat)
  | int
  | other
deriving DecidableEq

/-- The number of values of a type, if it is known and small. -/
def ArgType.domainSize? : ArgType → Option Nat
  | bool => some 2
  | enum variants => some variants
  | int | other => none

structure Constraint where
  id : ConstraintId
  name : Symbol
  arity : Nat
  modifiers : Modifiers
  argTypes : List ArgType
  /-- Telling an instance twice is the same as telling it once. -/
  setSemantics : Bool
  /-- The argument positions that determine the others. -/
  dependency : Option (List Nat)
  /-- False when no instance ever enters the store. -/
  mayBeStored : Bool
  /-- Cleared when no activation leads to another activation of the same constraint. -/
  isRecursive : Bool
  /-- The constraints that some cascade of firings rooted at this one may remove. -/
  removees : List ConstraintId
  /-- The occurrences in the order of their declaration. -/
  occurrences : List OccurrenceId
  categories : Categories
deriving DecidableEq

/-- The access path of a search for instances of a constraint whose arguments at the given positions
are known. -/
def Constraint.accessPath (c : Constraint) (positions : List Nat) : AccessPath :=
  if !c.mayBeStored then .neverStored
  else if positions.isEmpty then .scan
  else if !c.setSemantics then .hash positions
  else
    match c.dependency with
    | some key =>
      if key.all fun k => decide (k ∈ positions) then .dependencyHash key else .setHash positions
    | none => .setHash positions

end ConstraintRules
