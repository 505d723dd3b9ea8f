import ConstraintRules.Activation.Node
import ConstraintRules.Reach

/-! Activation facts and their consequences. A query holds if it follows from the
told facts along a chain of activations. -/

namespace ConstraintRules.Activation

inductive Relation where
  /-- Activating the first node may directly activate the second. -/
  | activates
  /-- Activating the second node may look up stored instances of the first, a constraint. -/
  | observes
  /-- Activating the first node may remove instances of the second, a constraint. -/
  | removes
deriving DecidableEq

inductive Fact where
  | related (r : Relation) (x y : Node)
  /-- The node has code that may activate reactive constraints again. -/
  | triggering (x : Node)
  /-- The node has arbitrary foreign code. -/
  | pessimistic (x : Node)
  /-- The constraint is activated by every trigger. -/
  | reactivated (c : ConstraintId)
  /-- The constraint can be called from foreign code. -/
  | exported (c : ConstraintId)
deriving DecidableEq

inductive Query where
  | related (r : Relation) (x y : Node)
  /-- The node may activate stored instances of the constraint again. -/
  | reactivates (x : Node) (c : ConstraintId)
deriving DecidableEq

structure Facts where
  edges : List (Node × Node) := []
  /-- Who looks up what. -/
  observations : List (Node × ConstraintId) := []
  /-- Who removes what. -/
  removals : List (Node × ConstraintId) := []
  reactivated : List ConstraintId := []
  exported : List ConstraintId := []
  /-- The constraint that observes itself for the time being. -/
  assumption : Option ConstraintId := none
deriving DecidableEq

/-- Appends a member that is not yet there, and says whether it was new. -/
def insertNew {α : Type} [DecidableEq α] (x : α) (xs : List α) : Bool × List α :=
  if x ∈ xs then (false, xs) else (true, xs ++ [x])

namespace Facts

def addEdge (f : Facts) (x y : Node) : Bool × Facts :=
  let (new, edges) := insertNew (x, y) f.edges
  (new, { f with edges })

def addObservation (f : Facts) (observer : Node) (c : ConstraintId) : Bool × Facts :=
  let (new, observations) := insertNew (observer, c) f.observations
  (new, { f with observations })

def addRemoval (f : Facts) (remover : Node) (c : ConstraintId) : Bool × Facts :=
  let (new, removals) := insertNew (remover, c) f.removals
  (new, { f with removals })

/-- Adds a fact and says whether it was new. An observed or removed node that is no constraint is
ignored. -/
def tell (f : Facts) : Fact → Bool × Facts
  | .related .activates x y => f.addEdge x y
  | .related .observes (.constraint c) y => f.addObservation y c
  | .related .observes _ _ => (false, f)
  | .related .removes x (.constraint c) => f.addRemoval x c
  | .related .removes _ _ => (false, f)
  | .triggering x => f.addEdge x .trigger
  | .pessimistic x =>
    let (newCall, f) := f.addEdge x .foreign
    let (newTrigger, f) := f.addEdge .foreign .trigger
    (newCall || newTrigger, f)
  | .reactivated c =>
    { f with reactivated := (insertNew c f.reactivated).2 }.addEdge .trigger (.constraint c)
  | .exported c =>
    { f with exported := (insertNew c f.exported).2 }.addEdge .foreign (.constraint c)

/-- The nodes that activating `x` may lead to by one or more steps. -/
def reach (f : Facts) (x : Node) : List Node := Reach.reach f.edges x

/-- Whether the node itself looks up the constraint. -/
def observesDirectly (f : Facts) (c : ConstraintId) (x : Node) : Bool :=
  decide ((x, c) ∈ f.observations) || (decide (f.assumption = some c) && decide (x = .constraint c))

/-- Whether activating `x`, which reaches the listed nodes, may look up the constraint: directly, by
a trigger that activates it again, or by foreign code that can see it. -/
def observesFrom (f : Facts) (reached : List Node) (c : ConstraintId) (x : Node) : Bool :=
  (x :: reached).any (f.observesDirectly c) ||
    (decide (Node.trigger ∈ reached) && decide (c ∈ f.reactivated)) ||
    (decide (Node.foreign ∈ reached) && decide (c ∈ f.exported ∨ c ∈ f.reactivated))

def removesFrom (f : Facts) (reached : List Node) (x : Node) (c : ConstraintId) : Bool :=
  (x :: reached).any fun y => decide ((y, c) ∈ f.removals)

/-- The answer to a query, given what each node reaches. -/
def answer (f : Facts) (reach : Node → List Node) : Query → Bool
  | .related .activates x y => decide (y ∈ reach x)
  | .related .observes (.constraint c) y => f.observesFrom (reach y) c y
  | .related .observes _ _ => false
  | .related .removes x (.constraint c) => f.removesFrom (reach x) x c
  | .related .removes _ _ => false
  | .reactivates x c => decide (c ∈ f.reactivated) && decide (Node.trigger ∈ reach x)

def holds (f : Facts) (q : Query) : Bool := f.answer f.reach q

end Facts

end ConstraintRules.Activation
