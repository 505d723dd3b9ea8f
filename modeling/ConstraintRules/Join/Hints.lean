import ConstraintRules.Join.Clique
import ConstraintRules.Join.Component
import ConstraintRules.Join.Cycle

/-! What a planner wants to know about the join of a head, in one value. -/

namespace ConstraintRules

structure JoinHints where
  acyclic : Bool
  connected : Bool
  /-- The independent parts of the join, which together cover the head. -/
  components : List (List Nat)
  cliques : List Clique
deriving DecidableEq

def JoinGraph.hints (g : JoinGraph) : JoinHints where
  acyclic := g.isAcyclic
  connected := g.isConnected
  components := g.components
  cliques := g.maximalCliques

end ConstraintRules
