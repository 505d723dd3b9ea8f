import ConstraintRules.Program.Constraint
import ConstraintRules.Program.Occurrence
import ConstraintRules.Program.Rule
import ConstraintRules.SymbolTable

/-! Programs of constraint handling rules. Constraints, rules and occurrences
stand in three lists and refer to each other by position. -/

namespace ConstraintRules

structure Program where
  symbols : SymbolTable := .empty
  constraints : List Constraint := []
  rules : List Rule := []
  occurrences : List Occurrence := []

namespace Program

def constraint? (p : Program) (c : ConstraintId) : Option Constraint := p.constraints[c.index]?

def rule? (p : Program) (r : RuleId) : Option Rule := p.rules[r.index]?

def occurrence? (p : Program) (o : OccurrenceId) : Option Occurrence := p.occurrences[o.index]?

def modifyConstraint (p : Program) (c : ConstraintId) (f : Constraint → Constraint) : Program :=
  { p with constraints := p.constraints.modify c.index f }

def modifyRule (p : Program) (r : RuleId) (f : Rule → Rule) : Program :=
  { p with rules := p.rules.modify r.index f }

def modifyOccurrence (p : Program) (o : OccurrenceId) (f : Occurrence → Occurrence) : Program :=
  { p with occurrences := p.occurrences.modify o.index f }

def constraintNamed? (p : Program) (name : String) : Option ConstraintId := do
  let s ← p.symbols.get? name
  let c ← p.constraints.find? fun c => c.name = s
  some c.id

def nameOf (p : Program) (c : Constraint) : String :=
  (p.symbols.resolve? c.name).getD ""

def resolve? (p : Program) (os : List OccurrenceId) : Option (List Occurrence) :=
  os.mapM p.occurrence?

/-- The active occurrences, in the order of their declaration. -/
def active (p : Program) : List Occurrence := p.occurrences.filter Occurrence.isActive

def activeOf (p : Program) (c : ConstraintId) : List Occurrence :=
  p.active.filter fun o => o.constraint = c

/-- The other occurrences of an occurrence's rule in join order: the rest of the positive head, then
the negative heads. -/
def partners? (p : Program) (o : Occurrence) : Option (List OccurrenceId) :=
  (p.rule? o.rule).map fun r => r.occurrences.filter fun q => q ≠ o.id

def headPartners? (p : Program) (o : Occurrence) : Option (List OccurrenceId) :=
  (p.rule? o.rule).map fun r => r.head.filter fun q => q ≠ o.id

/-- Whether running a goal again cannot change the outcome. -/
def isIdempotent (p : Program) : Goal → Bool
  | .free => true
  | .builtIn b => b.idempotent
  | .call c _ => (p.constraint? c).any Constraint.setSemantics
  | .triggering | .pessimistic => false

def hasIdempotentBody (p : Program) (r : Rule) : Bool := r.body.all p.isIdempotent

/-- The variables of a negative head: its arguments and those of its guard. -/
def negativeVars? (p : Program) (n : NegativeHead) : Option (List VarId) :=
  (p.resolve? n.occurrences).map fun os =>
    os.flatMap Occurrence.args ++ n.guard.flatMap GuardConjunct.vars

/-- The join graph of a rule's positive head. Each guard conjunct is a condition, and so is each
negative head, which selects on its arguments and its guard together. -/
def joinGraph? (p : Program) (r : Rule) : Option JoinGraph := do
  let head ← p.resolve? r.head
  let negatives ← r.negatives.mapM p.negativeVars?
  some (JoinGraph.ofPlaces (head.map Occurrence.args) (r.guard.map GuardConjunct.vars ++ negatives))

end Program

end ConstraintRules
