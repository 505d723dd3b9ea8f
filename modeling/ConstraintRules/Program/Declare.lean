import ConstraintRules.Program.Basic
import ConstraintRules.Program.Error

/-! Declaring constraints, and the reasons to refuse a declaration, in the order
in which they are tried. -/

namespace ConstraintRules

structure Declaration where
  name : String
  arity : Nat
  modifiers : Modifiers := {}
  argTypes : Option (List ArgType) := none
  setSemantics : Bool := false
  dependency : Option (List Nat) := none
  mayBeStored : Bool := true

namespace Declaration

def exported (d : Declaration) : Declaration :=
  { d with modifiers := { d.modifiers with exported := true } }

def reactive (d : Declaration) : Declaration :=
  { d with modifiers := { d.modifiers with reactive := true } }

/-- Set semantics in which the positions of `key` determine the others. -/
def withDependency (d : Declaration) (key : List Nat) : Declaration :=
  { d with setSemantics := true, dependency := some key }

def neverStored (d : Declaration) : Declaration := { d with mayBeStored := false }

def wrongArgTypes? (d : Declaration) : Option ModelError :=
  match d.argTypes with
  | some types =>
    if types.length = d.arity then none else some (.argTypeCount d.name d.arity types.length)
  | none => none

def wrongDependency? (d : Declaration) : Option ModelError := do
  let key ← d.dependency
  let position ← key.find? fun k => decide (d.arity ≤ k)
  some (.dependencyOutOfRange d.name position)

end Declaration

namespace Program

def appendConstraint (p : Program) (d : Declaration) : ConstraintId × Program :=
  let id : ConstraintId := ⟨p.constraints.length⟩
  let (name, symbols) := p.symbols.intern d.name
  let constraint : Constraint :=
    { id, name
      arity := d.arity
      modifiers := d.modifiers
      argTypes := d.argTypes.getD (List.replicate d.arity .other)
      setSemantics := d.setSemantics
      dependency := d.dependency
      mayBeStored := d.mayBeStored
      isRecursive := true
      removees := []
      occurrences := []
      categories := .empty }
  (id, { p with symbols, constraints := p.constraints ++ [constraint] })

/-- The constraint of a name, which is declared plainly if it is new. -/
def ensureConstraint (p : Program) (name : String) (arity : Nat) : ConstraintId × Program :=
  match p.constraintNamed? name with
  | some id => (id, p)
  | none => p.appendConstraint { name, arity }

def declare (p : Program) (d : Declaration) : Except ModelError (ConstraintId × Program) :=
  match p.constraintNamed? d.name with
  | some _ => .error (.duplicateConstraint d.name)
  | none =>
    match d.wrongArgTypes? <|> d.wrongDependency? with
    | some e => .error e
    | none => .ok (p.appendConstraint d)

end Program

end ConstraintRules
