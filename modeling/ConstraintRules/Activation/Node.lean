import ConstraintRules.Ident

/-! Nodes of the activation graph: constraints, rule bodies, and two nodes for
code outside the rules. -/

namespace ConstraintRules.Activation

inductive Node where
  | constraint (c : ConstraintId)
  | body (r : RuleId)
  | trigger
  | foreign
deriving DecidableEq

namespace Node

def text : Node → String
  | constraint c => c.text
  | body r => "body(" ++ r.text ++ ")"
  | trigger => "<trigger>"
  | foreign => "<foreign>"

/-- Constraints come first, then bodies, the trigger and foreign code. -/
def rank : Node → Nat × Nat
  | constraint c => (0, c.index)
  | body r => (1, r.index)
  | trigger => (2, 0)
  | foreign => (3, 0)

def le (x y : Node) : Bool :=
  decide (x.rank.1 < y.rank.1 ∨ x.rank.1 = y.rank.1 ∧ x.rank.2 ≤ y.rank.2)

end Node

end ConstraintRules.Activation
