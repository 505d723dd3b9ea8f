import ConstraintRules.Pass.Outcome

/-! Late storage. Where no activation under a body can look up the active
instance, storing it can wait. -/

namespace ConstraintRules

open Activation

structure StorageStats where
  /-- Occurrences whose instance need no longer be stored. -/
  unstored : Nat
  /-- Constraints that never enter the store. -/
  neverStored : Nat
  /-- Questions asked: one for each constraint that may be stored and each rule it can fire. -/
  queries : Nat
deriving DecidableEq

namespace Program

def mayBeStored (p : Program) (c : ConstraintId) : Bool :=
  (p.constraint? c).any Constraint.mayBeStored

/-- Whether the active instance has to be in the store while the body runs. -/
def mustBeStored (p : Program) (s : Session) (o : Occurrence) : Bool :=
  p.mayBeStored o.constraint && !o.removed && s.bodySees o.constraint o.rule

def canWait (p : Program) (s : Session) (o : Occurrence) : Bool :=
  o.isActive && o.stored && !p.mustBeStored s o

def delay (p : Program) (s : Session) (o : Occurrence) : Occurrence :=
  if p.canWait s o then { o with stored := false } else o

def bodies (p : Program) : List Node := p.rules.map fun r => .body r.id

/-- Clears the storage mark of active occurrences where it is not needed. -/
def delayStorage (p : Program) : Outcome StorageStats :=
  .withSession p p.observationSession? fun s =>
    let s := s.rememberAll p.bodies
    let storable := p.constraints.filter Constraint.mayBeStored
    let stats : StorageStats :=
      { unstored := p.occurrences.countP (p.canWait s)
        neverStored := p.constraints.countP fun c => !c.mayBeStored
        queries :=
          (storable.flatMap fun c => ((p.activeOf c.id).map Occurrence.rule).eraseDups).length }
    .done stats { p with occurrences := p.occurrences.map (p.delay s) }

/-- Whether the body of a rule may look up stored instances of a constraint. -/
def bodySees? (p : Program) (c : ConstraintId) (r : RuleId) : Option (Except DanglingCall Bool) :=
  p.observationSession?.map fun session => session.map fun s => s.bodySees c r

end Program

end ConstraintRules
