import ConstraintRules.Activation.Facts

/-! Sessions: facts with the closures computed so far. A new edge makes a session
forget all closures. -/

namespace ConstraintRules.Activation

/-- Misuse of the fact that a constraint observes itself. -/
inductive AssumptionError where
  | nested (c : ConstraintId)
  | unpaired
deriving DecidableEq

def AssumptionError.message : AssumptionError → String
  | nested c => "self fact for " ++ c.text ++ " asserted while one is already active"
  | unpaired => "self fact reset without a matching assertion"

structure Session where
  facts : Facts := {}
  memo : List (Node × List Node) := []
  memo_eq_reach : ∀ e ∈ memo, e.2 = facts.reach e.1 := by simp

namespace Session

def empty : Session := {}

def tell (s : Session) (fact : Fact) : Bool × Session :=
  let told := s.facts.tell fact
  if h : told.2.edges = s.facts.edges then
    (told.1, ⟨told.2, s.memo, by
      intro e he
      rw [s.memo_eq_reach e he, Facts.reach, Facts.reach, h]⟩)
  else (told.1, { facts := told.2 })

def ofFacts (facts : List Fact) : Session := facts.foldl (fun s fact => (s.tell fact).2) empty

/-- What activating `x` leads to, as remembered or else computed anew. -/
def reach (s : Session) (x : Node) : List Node :=
  match s.memo.find? fun e => e.1 = x with
  | some e => e.2
  | none => s.facts.reach x

theorem reach_eq (s : Session) (x : Node) : s.reach x = s.facts.reach x := by
  unfold reach
  split
  · rename_i e he
    have hx : e.1 = x := by simpa using List.find?_some he
    rw [s.memo_eq_reach e (List.mem_of_find?_eq_some he), hx]
  · rfl

def remember (s : Session) (x : Node) : Session where
  facts := s.facts
  memo := if s.memo.any fun e => e.1 = x then s.memo else (x, s.facts.reach x) :: s.memo
  memo_eq_reach := by
    intro e he
    split at he
    · exact s.memo_eq_reach e he
    · rcases List.mem_cons.mp he with rfl | he
      · rfl
      · exact s.memo_eq_reach e he

def rememberAll (s : Session) (xs : List Node) : Session := xs.foldl remember s

/-- The answer to a query, which leaves the session unchanged. -/
def holds (s : Session) (q : Query) : Bool := s.facts.answer s.reach q

/-- The node whose closure a query needs. -/
def source : Query → Node
  | .related .observes _ y => y
  | .related .activates x _ => x
  | .related .removes x _ => x
  | .reactivates x _ => x

/-- Answers a query and remembers the closure that it needed. -/
def ask (s : Session) (q : Query) : Bool × Session :=
  let s := s.remember (source q)
  (s.holds q, s)

/-- The nodes that activating `x` may lead to, in ascending order. -/
def reachable (s : Session) (x : Node) : List Node × Session :=
  let s := s.remember x
  ((s.reach x).mergeSort Node.le, s)

def edgeCount (s : Session) : Nat := s.facts.edges.length

def setAssumption (s : Session) (c : Option ConstraintId) : Session where
  facts := { s.facts with assumption := c }
  memo := s.memo
  memo_eq_reach := s.memo_eq_reach

/-- Lets a constraint observe itself until `release`. -/
def assume (s : Session) (c : ConstraintId) : Except AssumptionError Session :=
  match s.facts.assumption with
  | some _ => .error (.nested c)
  | none => .ok (s.setAssumption (some c))

def release (s : Session) : Except AssumptionError Session :=
  match s.facts.assumption with
  | some _ => .ok (s.setAssumption none)
  | none => .error .unpaired

/-- Asks while a constraint observes itself. -/
def assuming {α : Type} (s : Session) (c : ConstraintId) (query : Session → α × Session) :
    Except AssumptionError (α × Session) := do
  let s ← s.assume c
  let (a, s) := query s
  let s ← s.release
  pure (a, s)

/-- Whether the body of a rule may look up a stored instance of the constraint, the instance that
fired the rule included. -/
def bodySees (s : Session) (c : ConstraintId) (r : RuleId) : Bool :=
  (s.setAssumption (some c)).holds (.related .observes (.constraint c) (.body r))

end Session

end ConstraintRules.Activation
