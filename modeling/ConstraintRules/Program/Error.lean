import ConstraintRules.Ident

/-! What can be wrong with a declaration or a rule. -/

namespace ConstraintRules

inductive ModelError where
  | duplicateConstraint (name : String)
  | unknownConstraint (id : ConstraintId)
  | arityMismatch (name : String) (expected found : Nat)
  | argTypeCount (name : String) (expected found : Nat)
  | dependencyOutOfRange (name : String) (position : Nat)
  | emptyHead (rule : String)
  | unboundGuardVariable (rule var : String)
  /-- A passive mark that follows no positive occurrence. -/
  | danglingPassive (rule : String)
deriving DecidableEq

def ModelError.message : ModelError → String
  | duplicateConstraint name => "constraint " ++ name ++ " is declared twice"
  | unknownConstraint id => "unknown constraint id " ++ id.text
  | arityMismatch name expected found =>
    "constraint " ++ name ++ "/" ++ toString expected ++ " used with " ++ toString found ++
      " arguments"
  | argTypeCount name expected found =>
    "constraint " ++ name ++ " declares " ++ toString found ++ " argument types for arity " ++
      toString expected
  | dependencyOutOfRange name position =>
    "functional dependency of " ++ name ++ " names position " ++ toString position ++
      " out of range"
  | emptyHead rule => "rule " ++ rule ++ " has an empty positive head"
  | unboundGuardVariable rule var =>
    "guard of rule " ++ rule ++ " uses variable " ++ var ++ " not bound by its head"
  | danglingPassive rule =>
    "passive marker in rule " ++ rule ++ " without a preceding head occurrence"

end ConstraintRules
