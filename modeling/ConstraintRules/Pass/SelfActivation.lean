import ConstraintRules.Pass.Outcome

/-! Recursion. The mark of a constraint is cleared if no activation of it leads to
another one. -/

namespace ConstraintRules

open Activation

structure RecursionStats where
  cleared : Nat
  recursive : Nat
deriving DecidableEq

namespace Activation.Session

/-- Whether an activation of the constraint may lead to another one. -/
def activatesItself (s : Session) (c : ConstraintId) : Bool :=
  s.holds (.related .activates (.constraint c) (.constraint c))

def clearMark (s : Session) (c : Constraint) : Constraint :=
  { c with isRecursive := c.isRecursive && s.activatesItself c.id }

end Activation.Session

namespace Program

def recursionStats (p : Program) (s : Session) : RecursionStats :=
  { cleared := p.constraints.countP fun c => c.isRecursive && !s.activatesItself c.id
    recursive := p.constraints.countP fun c => c.isRecursive && s.activatesItself c.id }

/-- Clears the recursion mark of constraints that never activate themselves. -/
def clearRecursion (p : Program) : Outcome RecursionStats :=
  p.noteCalls p.stackFacts? Session.clearMark p.recursionStats

end Program

end ConstraintRules
