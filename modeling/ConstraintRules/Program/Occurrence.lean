import ConstraintRules.Access.Lookup

/-! Occurrences of constraints in rule heads. Those that are neither passive nor
negated are active. -/

namespace ConstraintRules

/-- The head of its rule in which an occurrence stands. -/
inductive HeadPart where
  | positive
  | negative (n : Nat)
deriving DecidableEq

structure Occurrence where
  id : OccurrenceId
  constraint : ConstraintId
  rule : RuleId
  head : HeadPart
  /-- The place in its head. -/
  index : Nat
  /-- The number among the occurrences of its constraint, from one. -/
  number : Nat
  passive : Bool
  /-- A firing removes the matched instance. -/
  removed : Bool
  args : List VarId
  /-- The active instance has to be in the store while the body runs. -/
  stored : Bool
  checkHistory : Bool
  /-- The searches made when this occurrence is active, in join order. -/
  lookups : List Lookup
deriving DecidableEq

namespace Occurrence

def isActive (o : Occurrence) : Bool := !o.passive && decide (o.head = .positive)

def arity (o : Occurrence) : Nat := o.args.length

def lookup? (o : Occurrence) (partner : OccurrenceId) : Option Lookup :=
  o.lookups.find? fun l => l.partner = partner

end Occurrence

end ConstraintRules
