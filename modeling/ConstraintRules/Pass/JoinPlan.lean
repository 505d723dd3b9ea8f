import ConstraintRules.Pass.Outcome

/-! Join hints for the rules with two or more positive occurrences. -/

namespace ConstraintRules

structure JoinStats where
  rules : Nat
  cyclic : Nat
  disconnected : Nat
  cliques : Nat
deriving DecidableEq

def JoinStats.ofHints (hints : List JoinHints) : JoinStats where
  rules := hints.length
  cyclic := hints.countP fun h => !h.acyclic
  disconnected := hints.countP fun h => !h.connected
  cliques := (hints.flatMap JoinHints.cliques).length

def Rule.hasJoin (r : Rule) : Bool := decide (2 ≤ r.head.length)

namespace Program

def withHints? (p : Program) (r : Rule) : Option Rule :=
  if r.hasJoin then (p.joinGraph? r).map fun g => { r with hints := some g.hints } else some r

def planJoins (p : Program) : Outcome JoinStats :=
  match p.rules.mapM p.withHints? with
  | none => .dangling
  | some rules =>
    .done (.ofHints ((rules.filter Rule.hasJoin).filterMap Rule.hints)) { p with rules }

end Program

end ConstraintRules
