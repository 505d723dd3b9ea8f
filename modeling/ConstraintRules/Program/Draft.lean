import ConstraintRules.Program.Declare

/-! Drafts of rules, taken step by step. A step that misuses a constraint adds
nothing, and the first misuse is remembered. -/

namespace ConstraintRules

inductive RuleStep where
  /-- A positive occurrence that a firing keeps. -/
  | kept (constraint : ConstraintId) (args : List String)
  /-- A positive occurrence that a firing removes. -/
  | removed (constraint : ConstraintId) (args : List String)
  /-- Marks the latest positive occurrence as passive. -/
  | passive
  /-- A new negative head with one occurrence. -/
  | negated (constraint : ConstraintId) (args : List String)
  /-- An equality in the guard of the latest negative head, or of the rule if there is none. -/
  | negatedEqual (left right : String)
  | guardEqual (left right : String)
  | guardTest (vars : List String)
  | call (constraint : ConstraintId) (args : List String)
  | builtIn (b : BuiltIn)
  | triggering
  | pessimistic
  | free
deriving DecidableEq

structure DraftOccurrence where
  constraint : ConstraintId
  args : List VarId
  removed : Bool := false
  passive : Bool := false
deriving DecidableEq

structure DraftNegative where
  occurrences : List DraftOccurrence
  guard : List GuardConjunct := []
deriving DecidableEq

structure Draft where
  name : String
  /-- The variable names; a variable's number is its place among them. -/
  vars : SymbolTable := .empty
  positive : List DraftOccurrence := []
  negatives : List DraftNegative := []
  guard : List GuardConjunct := []
  body : List Goal := []
  /-- The first misuse. -/
  misuse : Option ModelError := none

/-- What is wrong with applying a constraint to a number of arguments. -/
def Program.misapplied? (p : Program) (c : ConstraintId) (args : Nat) : Option ModelError :=
  match p.constraint? c with
  | none => some (.unknownConstraint c)
  | some decl =>
    if decl.arity = args then none
    else some (.arityMismatch (p.nameOf decl) decl.arity args)

namespace Draft

def fail (d : Draft) (e : ModelError) : Draft := { d with misuse := d.misuse <|> some e }

def var (d : Draft) (name : String) : VarId × Draft :=
  let (s, vars) := d.vars.intern name
  (⟨s.index⟩, { d with vars })

def varList (d : Draft) (names : List String) : List VarId × Draft :=
  let (ss, vars) := d.vars.internAll names
  (ss.map fun s => ⟨s.index⟩, { d with vars })

def equality (d : Draft) (left right : String) : GuardConjunct × Draft :=
  let (l, d) := d.var left
  let (r, d) := d.var right
  (.equal l r, d)

/-- Goes on with the variables of an application that fits its constraint. -/
def apply (p : Program) (d : Draft) (c : ConstraintId) (args : List String)
    (next : List VarId → Draft → Draft) : Draft :=
  match p.misapplied? c args.length with
  | some e => d.fail e
  | none =>
    let (vs, d) := d.varList args
    next vs d

def markPassive (d : Draft) : Draft :=
  match d.positive.getLast? with
  | some o => { d with positive := d.positive.dropLast ++ [{ o with passive := true }] }
  | none => d.fail (.danglingPassive d.name)

def addNegatedGuard (d : Draft) (g : GuardConjunct) : Draft :=
  match d.negatives.getLast? with
  | some n => { d with negatives := d.negatives.dropLast ++ [{ n with guard := n.guard ++ [g] }] }
  | none => { d with guard := d.guard ++ [g] }

def addGoal (d : Draft) (g : Goal) : Draft := { d with body := d.body ++ [g] }

def take (p : Program) (d : Draft) : RuleStep → Draft
  | .kept c args => d.apply p c args fun args d =>
    { d with positive := d.positive ++ [{ constraint := c, args }] }
  | .removed c args => d.apply p c args fun args d =>
    { d with positive := d.positive ++ [{ constraint := c, args, removed := true }] }
  | .passive => d.markPassive
  | .negated c args => d.apply p c args fun args d =>
    { d with
      negatives := d.negatives ++
        [{ occurrences := [{ constraint := c, args, passive := true }] }] }
  | .negatedEqual left right =>
    let (g, d) := d.equality left right
    d.addNegatedGuard g
  | .guardEqual left right =>
    let (g, d) := d.equality left right
    { d with guard := d.guard ++ [g] }
  | .guardTest names =>
    let (vs, d) := d.varList names
    { d with guard := d.guard ++ [.test vs] }
  | .call c args => d.apply p c args fun args d => d.addGoal (.call c args)
  | .builtIn b => d.addGoal (.builtIn b)
  | .triggering => d.addGoal .triggering
  | .pessimistic => d.addGoal .pessimistic
  | .free => d.addGoal .free

def ofSteps (p : Program) (name : String) (steps : List RuleStep) : Draft :=
  steps.foldl (take p) { name }

def positiveVars (d : Draft) : List VarId := d.positive.flatMap DraftOccurrence.args

/-- Each guard with the variables that are bound when it is asked. -/
def scopes (d : Draft) : List (List GuardConjunct × List VarId) :=
  (d.guard, d.positiveVars) ::
    d.negatives.map fun n => (n.guard, d.positiveVars ++ n.occurrences.flatMap DraftOccurrence.args)

/-- The first guard variable that is not bound, guard by guard. -/
def unbound? (d : Draft) : Option VarId :=
  d.scopes.findSome? fun scope =>
    (scope.1.flatMap GuardConjunct.vars).find? fun v => decide (v ∉ scope.2)

def varName (d : Draft) (v : VarId) : String := (d.vars.resolve? ⟨v.index⟩).getD v.text

/-- The reason to refuse the rule, if there is one. -/
def fault? (d : Draft) : Option ModelError :=
  match d.misuse with
  | some e => some e
  | none =>
    if d.positive.isEmpty then some (.emptyHead d.name)
    else d.unbound?.map fun v => .unboundGuardVariable d.name (d.varName v)

end Draft

end ConstraintRules
