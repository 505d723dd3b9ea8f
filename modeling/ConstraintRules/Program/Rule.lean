import ConstraintRules.Join.Hints

/-! Rules: a positive head, negative heads that must have no match, a guard and a
body. -/

namespace ConstraintRules

/-- A condition asked by a guard. -/
inductive GuardConjunct where
  | equal (left right : VarId)
  | test (vars : List VarId)
deriving DecidableEq

/-- The variables that must be bound before the condition can be asked. -/
def GuardConjunct.vars : GuardConjunct → List VarId
  | equal left right => [left, right]
  | test vars => vars

structure BuiltIn where
  name : String
  /-- Running it twice has the same effect as running it once. -/
  idempotent : Bool
  /-- It may re-enter the handler, so stack frames matter. -/
  needsStack : Bool
deriving DecidableEq

/-- A conjunct of a body, by what it may cause when it runs. -/
inductive Goal where
  | call (constraint : ConstraintId) (args : List VarId)
  | builtIn (b : BuiltIn)
  /-- May activate every reactive constraint again. -/
  | triggering
  /-- Arbitrary foreign code. -/
  | pessimistic
  /-- Has no effect on the store. -/
  | free
deriving DecidableEq

structure NegativeHead where
  occurrences : List OccurrenceId
  guard : List GuardConjunct
deriving DecidableEq

inductive RuleKind where
  /-- Every positive occurrence is kept. -/
  | propagation
  /-- Every positive occurrence is removed. -/
  | simplification
  | simpagation
deriving DecidableEq

namespace RuleKind

def text : RuleKind → String
  | propagation => "propagation"
  | simplification => "simplification"
  | simpagation => "simpagation"

/-- The kind of a rule whose positive occurrences are removed as listed. -/
def ofRemoved (removed : List Bool) : RuleKind :=
  if !removed.any id then propagation
  else if removed.all id then simplification
  else simpagation

end RuleKind

structure Rule where
  id : RuleId
  name : String
  kind : RuleKind
  /-- The positive head, in textual order. -/
  head : List OccurrenceId
  negatives : List NegativeHead
  guard : List GuardConjunct
  body : List Goal
  /-- Cleared once no active occurrence has to check the propagation history. -/
  needsHistory : Bool
  hints : Option JoinHints
deriving DecidableEq

namespace Rule

def isPropagation (r : Rule) : Bool := decide (r.kind = .propagation)

/-- Every occurrence: the positive head, then the negative heads. -/
def occurrences (r : Rule) : List OccurrenceId :=
  r.head ++ r.negatives.flatMap NegativeHead.occurrences

end Rule

end ConstraintRules
