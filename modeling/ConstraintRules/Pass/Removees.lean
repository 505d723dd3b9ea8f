import ConstraintRules.Pass.Outcome

/-! Removees: for each constraint, the constraints that may be removed in the
activations rooted at it. -/

namespace ConstraintRules

open Activation

structure RemovalStats where
  /-- Constraints with at least one removee. -/
  removers : Nat
  pairs : Nat
deriving DecidableEq

namespace Program

def removeesOf (p : Program) (s : Session) (c : ConstraintId) : List ConstraintId :=
  (p.constraints.map Constraint.id).filter fun d =>
    s.holds (.related .removes (.constraint c) (.constraint d))

def listRemovees (p : Program) (s : Session) (c : Constraint) : Constraint :=
  { c with removees := p.removeesOf s c.id }

def removalStats (p : Program) (s : Session) : RemovalStats :=
  { removers := p.constraints.countP fun c => !(p.removeesOf s c.id).isEmpty
    pairs := (p.constraints.flatMap fun c => p.removeesOf s c.id).length }

def findRemovees (p : Program) : Outcome RemovalStats :=
  p.noteCalls p.removalFacts? p.listRemovees p.removalStats

end Program

end ConstraintRules
