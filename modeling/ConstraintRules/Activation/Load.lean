import ConstraintRules.Activation.Session
import ConstraintRules.Program.Basic

/-! The activation facts of a program, told by its declarations, active
occurrences and bodies. -/

namespace ConstraintRules

open Activation

/-- A call of a constraint that the program does not have. -/
structure DanglingCall where
  rule : String
  constraint : ConstraintId
deriving DecidableEq

def DanglingCall.message (d : DanglingCall) : String :=
  "internal error in rule " ++ d.rule ++ ": body calls unknown constraint " ++ d.constraint.text

namespace Program

def modifierFacts (p : Program) : List Fact :=
  p.constraints.flatMap fun c =>
    (if c.modifiers.reactive then [Fact.reactivated c.id] else []) ++
      (if c.modifiers.exported then [Fact.exported c.id] else [])

/-- Activating a constraint runs the bodies of the rules in which it has an active occurrence. -/
def activationFacts (p : Program) : List Fact :=
  p.active.map fun o => .related .activates (.constraint o.constraint) (.body o.rule)

def goalFacts (r : RuleId) : Goal → List Fact
  | .call c _ => [.related .activates (.body r) (.constraint c)]
  | .triggering => [.triggering (.body r)]
  | .pessimistic => [.pessimistic (.body r)]
  | .builtIn _ | .free => []

def bodyFacts (p : Program) : List Fact :=
  p.rules.flatMap fun r => r.body.flatMap (goalFacts r.id)

/-- The first call of an unknown constraint, rule by rule. -/
def danglingCall? (p : Program) : Option DanglingCall :=
  p.rules.findSome? fun r =>
    r.body.findSome? fun
      | .call c _ => if (p.constraint? c).isSome then none else some ⟨r.name, c⟩
      | _ => none

/-- Activating a constraint looks up the partners of its active occurrences. -/
def partnerFacts? (p : Program) : Option (List Fact) := do
  let facts ← p.active.mapM fun o => do
    let partners ← p.resolve? (← p.partners? o)
    pure (partners.map fun q =>
      Fact.related .observes (.constraint q.constraint) (.constraint o.constraint))
  some facts.flatten

/-- A firing removes every removed occurrence of the positive head, not only the active one. -/
def removalFacts? (p : Program) : Option (List Fact) := do
  let facts ← p.active.mapM fun o => do
    let rule ← p.rule? o.rule
    let head ← p.resolve? rule.head
    pure ((head.filter Occurrence.removed).map fun q =>
      Fact.related .removes (.constraint o.constraint) (.constraint q.constraint))
  some facts.flatten

/-- A built-in that needs the stack may re-enter the handler of the active constraint. -/
def stackFacts? (p : Program) : Option (List Fact) := do
  let facts ← p.active.mapM fun o => do
    let rule ← p.rule? o.rule
    let reenters := rule.body.any fun
      | .builtIn b => b.needsStack
      | _ => false
    pure (if reenters then
      [Fact.related .activates (.constraint o.constraint) (.constraint o.constraint)] else [])
  some facts.flatten

/-- What follows from declarations, active occurrences and bodies. -/
def callFacts (p : Program) : List Fact := p.modifierFacts ++ p.activationFacts ++ p.bodyFacts

/-- A session on the program's calls and partner searches. A dangling head outranks a dangling
call. -/
def observationSession? (p : Program) : Option (Except DanglingCall Session) := do
  let partners ← p.partnerFacts?
  match p.danglingCall? with
  | some d => some (.error d)
  | none => some (.ok (.ofFacts (p.callFacts ++ partners)))

/-- A session on the program's calls and further facts. A dangling call outranks whatever dangles in
the further facts. -/
def callSession? (p : Program) (further : Option (List Fact)) :
    Option (Except DanglingCall Session) :=
  match p.danglingCall? with
  | some d => some (.error d)
  | none => further.map fun facts => .ok (.ofFacts (p.callFacts ++ facts))

end Program

end ConstraintRules
