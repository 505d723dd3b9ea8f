import ConstraintRules.Program.Draft

/-! Building programs by steps, each of which declares a constraint or adds a
rule. A refused step changes nothing. -/

namespace ConstraintRules

namespace Program

/-- Appends an occurrence to the program and to the list of its constraint. -/
def appendOccurrence (p : Program) (rule : RuleId) (head : HeadPart) (index : Nat)
    (d : DraftOccurrence) : OccurrenceId × Program :=
  let id : OccurrenceId := ⟨p.occurrences.length⟩
  let earlier := (p.constraint? d.constraint).elim 0 fun c => c.occurrences.length
  let occurrence : Occurrence :=
    { id, rule, head, index
      constraint := d.constraint
      number := earlier + 1
      passive := d.passive
      removed := d.removed
      args := d.args
      stored := true
      checkHistory := true
      lookups := [] }
  let p := p.modifyConstraint d.constraint fun c => { c with occurrences := c.occurrences ++ [id] }
  (id, { p with occurrences := p.occurrences ++ [occurrence] })

/-- Appends the occurrences of one head, the first of them at place `index`. -/
def appendHead (p : Program) (rule : RuleId) (head : HeadPart) (index : Nat) :
    List DraftOccurrence → List OccurrenceId × Program
  | [] => ([], p)
  | d :: ds =>
    let (id, p) := p.appendOccurrence rule head index d
    let (ids, p) := p.appendHead rule head (index + 1) ds
    (id :: ids, p)

/-- Appends the occurrences of the negative heads, the first of them with number `n`. -/
def appendNegatives (p : Program) (rule : RuleId) (n : Nat) :
    List DraftNegative → List NegativeHead × Program
  | [] => ([], p)
  | d :: ds =>
    let (occurrences, p) := p.appendHead rule (.negative n) 0 d.occurrences
    let (negatives, p) := p.appendNegatives rule (n + 1) ds
    ({ occurrences, guard := d.guard } :: negatives, p)

def appendRule (p : Program) (d : Draft) : RuleId × Program :=
  let id : RuleId := ⟨p.rules.length⟩
  let (head, p) := p.appendHead id .positive 0 d.positive
  let (negatives, p) := p.appendNegatives id 0 d.negatives
  let rule : Rule :=
    { id, head, negatives
      name := d.name
      kind := .ofRemoved (d.positive.map DraftOccurrence.removed)
      guard := d.guard
      body := d.body
      needsHistory := true
      hints := none }
  (id, { p with rules := p.rules ++ [rule] })

def addRule (p : Program) (name : String) (steps : List RuleStep) :
    Except ModelError (RuleId × Program) :=
  let d := Draft.ofSteps p name steps
  match d.fault? with
  | some e => .error e
  | none => .ok (p.appendRule d)

end Program

inductive BuildStep where
  /-- Declares a plain constraint unless the name is taken. -/
  | ensure (name : String) (arity : Nat)
  | declare (d : Declaration)
  | rule (name : String) (steps : List RuleStep)

inductive Built where
  | constraint (id : ConstraintId)
  | rule (id : RuleId)
deriving DecidableEq

namespace Program

def perform (p : Program) : BuildStep → Except ModelError Built × Program
  | .ensure name arity =>
    let (id, p) := p.ensureConstraint name arity
    (.ok (.constraint id), p)
  | .declare d =>
    match p.declare d with
    | .ok (id, q) => (.ok (.constraint id), q)
    | .error e => (.error e, p)
  | .rule name steps =>
    match p.addRule name steps with
    | .ok (id, q) => (.ok (.rule id), q)
    | .error e => (.error e, p)

/-- The program after a list of build steps. -/
def build (steps : List BuildStep) : Program :=
  steps.foldl (fun p step => (p.perform step).2) {}

end Program

end ConstraintRules
