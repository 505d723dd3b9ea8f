import ConstraintRules.Program.Basic

/-! Search plans: the partners of an active occurrence in join order, each with
the access path that the known positions decide. -/

namespace ConstraintRules

structure Search where
  active : OccurrenceId
  partner : OccurrenceId
  /-- The constraint of the partner. -/
  target : ConstraintId
  path : AccessPath
  direct : Option DirectAccess
deriving DecidableEq

/-- The conditions that hold for a match of a part of the head: the rule's guard, and for a negative
head its own guard as well. -/
def Rule.guardOf? (r : Rule) : HeadPart → Option (List GuardConjunct)
  | .positive => some r.guard
  | .negative n => r.negatives[n]?.map fun h => r.guard ++ h.guard

namespace Search

/-- Whether an equality ties a variable to a bound one. -/
def tied (guard : List GuardConjunct) (bound : List VarId) (v : VarId) : Bool :=
  guard.any fun
    | .equal a b => decide (a = v ∧ b ∈ bound ∨ b = v ∧ a ∈ bound)
    | .test _ => false

/-- The argument positions whose values are known, in ascending order. -/
def knownPositions (guard : List GuardConjunct) (bound args : List VarId) : List Nat :=
  (args.zipIdx.filter fun vi => decide (vi.1 ∈ bound) || tied guard bound vi.1).map Prod.snd

/-- The first place of a variable in the first head occurrence that has it. -/
def locate? (head : List (List VarId)) (v : VarId) : Option HeadArg :=
  head.zipIdx.findSome? fun ai => (ai.1.idxOf? v).map fun argument => ⟨ai.2, argument⟩

def link? (head : List (List VarId)) (guard : GuardConjunct × Nat) : Option HeadLink :=
  match guard.1 with
  | .equal a b => do
    let left ← locate? head a
    let right ← locate? head b
    if left.head = right.head then none else some ⟨guard.2, left, right⟩
  | .test _ => none

/-- The equality that links different occurrences of a head, if there is exactly one. -/
def soleLink? (head : List (List VarId)) (guard : List GuardConjunct) : Option HeadLink :=
  match guard.zipIdx.filterMap (link? head) with
  | [l] => some l
  | _ => none

/-- Direct access across a link from the active place of the head to the partner's place, if the key
is the linked argument and nothing else. -/
def direct? (l : HeadLink) (active partner : Nat) (path : AccessPath) (types : List ArgType) :
    Option DirectAccess := do
  let side ← l.sideOf? active
  let arg := l.arg side.opposite
  if arg.head = partner ∧ (path = .hash [arg.argument] ∨ path = .setHash [arg.argument]) then
    let type ← types[arg.argument]?
    let size ← type.domainSize?
    some ⟨arg.argument, size⟩
  else none

end Search

namespace Program

/-- The searches of an active occurrence for the listed partners, given
the variables bound so far. -/
def searches? (p : Program) (rule : Rule) (link : Option HeadLink) (o : Occurrence) :
    List VarId → List Occurrence → Option (List Search)
  | _, [] => some []
  | bound, q :: qs => do
    let guard ← rule.guardOf? q.head
    let c ← p.constraint? q.constraint
    let path := c.accessPath (Search.knownPositions guard bound q.args)
    let direct := do
      let l ← link
      if q.head = .positive then Search.direct? l o.index q.index path c.argTypes else none
    let rest ← p.searches? rule link o (bound ++ q.args) qs
    some ({ active := o.id, partner := q.id, target := q.constraint, path, direct } :: rest)

/-- The plan of one active occurrence. Arrays are indexed directly only in binary heads. -/
def occurrencePlan? (p : Program) (arrayIndexing : Bool) (o : Occurrence) :
    Option (List Search) := do
  let rule ← p.rule? o.rule
  let head ← p.resolve? rule.head
  let partners ← p.resolve? (← p.partners? o)
  let link :=
    if arrayIndexing && decide (head.length = 2) then
      Search.soleLink? (head.map Occurrence.args) rule.guard
    else none
  p.searches? rule link o o.args partners

/-- The searches of all active occurrences, occurrence by occurrence. -/
def searchPlan? (p : Program) (arrayIndexing : Bool) : Option (List Search) :=
  (p.active.mapM (p.occurrencePlan? arrayIndexing)).map List.flatten

end Program

end ConstraintRules
