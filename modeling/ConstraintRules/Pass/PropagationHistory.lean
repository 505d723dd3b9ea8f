import ConstraintRules.Pass.LateStorage

/-! Propagation history. A rule and its active occurrences drop the check where no
firing can be repeated. -/

namespace ConstraintRules

open Activation

structure HistoryStats where
  /-- Active occurrences that no longer check the history. -/
  occurrences : Nat
  /-- Propagation rules that no longer keep a history. -/
  rules : Nat
  /-- Those among them that were judged as a whole. -/
  rulesAtOnce : Nat
deriving DecidableEq

/-- Whether an occurrence has to check the history, and the categories read to find out. -/
structure Verdict where
  needed : Bool
  reads : List (ConstraintId × CategoryId)
deriving DecidableEq

/-- A rule that removes from its head cannot fire again on the same instances. -/
def Rule.isSpent (r : Rule) : Bool := r.needsHistory && !r.isPropagation

/-- Whether the body of a rule may activate stored instances of the constraint again or tell new
ones. -/
def Activation.Session.firesAgain (s : Session) (r : RuleId) (c : ConstraintId) : Bool :=
  s.holds (.reactivates (.body r) c) || s.holds (.related .activates (.body r) (.constraint c))

namespace Program

def headNeverStored (p : Program) (r : Rule) : Bool :=
  r.head.any fun o => (p.occurrence? o).any fun o => !p.mayBeStored o.constraint

/-- A propagation rule whose second firing cannot happen or makes no difference. -/
def isHarmless (p : Program) (r : Rule) : Bool :=
  r.needsHistory && r.isPropagation &&
    (p.headNeverStored r || (decide (1 < r.head.length) && p.hasIdempotentBody r))

/-- The rules keep no history any more, and none of their positive occurrences checks it. -/
def dropHistory (p : Program) (dropped : List Rule) : Program :=
  let ids := dropped.map Rule.id
  let heads := dropped.flatMap Rule.head
  { p with
    rules := p.rules.map fun r => if r.id ∈ ids then { r with needsHistory := false } else r
    occurrences :=
      p.occurrences.map fun o => if o.id ∈ heads then { o with checkHistory := false } else o }

/-- Whether the lookups of an active occurrence find at most one instance of each listed
partner. The categories are read one after the other, up to the first that does not. -/
def readSingletons (p : Program) (o : Occurrence) :
    List Occurrence → Bool × List (ConstraintId × CategoryId)
  | [] => (true, [])
  | q :: qs =>
    let category := do
      let lookup ← o.lookup? q.id
      let c ← p.constraint? q.constraint
      let category ← c.categories.get? lookup.category
      some (lookup.category, category.path)
    match category with
    | none => (false, [])
    | some (id, path) =>
      if path.isSingleton q.arity then
        let rest := p.readSingletons o qs
        (rest.1, (q.constraint, id) :: rest.2)
      else (false, [(q.constraint, id)])

/-- Whether a firing through an active occurrence may be repeated on the same instances. -/
def verdict (p : Program) (s : Session) (elision storedBefore : Bool) (o : Occurrence)
    (partners : List Occurrence) : Verdict :=
  let again := s.holds (.reactivates (.body o.rule) o.constraint)
  if partners.isEmpty then ⟨storedBefore && again, []⟩
  else if storedBefore &&
      ((again && !elision) || partners.any fun q => s.firesAgain o.rule q.constraint) then
    ⟨true, []⟩
  else if o.stored then
    let singletons := p.readSingletons o partners
    ⟨!singletons.1 && s.bodySees o.constraint o.rule, singletons.2⟩
  else ⟨false, []⟩

/-- The verdicts on the active occurrences of one constraint that check the history. Only an
instance that an earlier occurrence has stored can come back to a later one. -/
def scan? (p : Program) (s : Session) (elision : Bool) :
    Bool → List Occurrence → Option (List (OccurrenceId × Verdict))
  | _, [] => some []
  | storedBefore, o :: os => do
    let rule ← p.rule? o.rule
    let partners ← p.resolve? (← p.headPartners? o)
    let rest ← p.scan? s elision (storedBefore || o.stored) os
    if rule.needsHistory && o.checkHistory then
      some ((o.id, p.verdict s elision storedBefore o partners) :: rest)
    else some rest

def verdicts? (p : Program) (s : Session) (elision : Bool) :
    Option (List (OccurrenceId × Verdict)) :=
  (p.constraints.mapM fun c => p.scan? s elision false (p.activeOf c.id)).map List.flatten

def clearChecks (p : Program) (os : List OccurrenceId) : Program :=
  { p with
    occurrences :=
      p.occurrences.map fun o => if o.id ∈ os then { o with checkHistory := false } else o }

def freezeCategories (p : Program) (reads : List (ConstraintId × CategoryId)) : Program :=
  reads.foldl (fun p cc => p.modifyConstraint cc.1 fun c =>
    { c with categories := c.categories.freeze cc.2 }) p

/-- A propagation rule none of whose active occurrences checks the history. -/
def isUnchecked (p : Program) (r : Rule) : Bool :=
  r.needsHistory && r.isPropagation &&
    r.head.all fun o => (p.occurrence? o).all fun o => !o.isActive || !o.checkHistory

/-- Whether the heads that the pass has to look into name occurrences of the program. -/
def headsResolve (p : Program) : Bool :=
  p.rules.all fun r => !r.needsHistory || (p.resolve? r.head).isSome

/-- Drops history checks. With `elision`, a rule is known not to fire again on the instances
that are active at the moment. -/
def elideHistory (elision : Bool) (p : Program) : Outcome HistoryStats :=
  .withSession p p.observationSession? fun s =>
    let s := s.rememberAll p.bodies
    if !p.headsResolve then .dangling
    else
      let harmless := p.rules.filter p.isHarmless
      let p := p.dropHistory (p.rules.filter Rule.isSpent ++ harmless)
      match p.verdicts? s elision with
      | none => .dangling
      | some verdicts =>
        let spared := (verdicts.filter fun v => !v.2.needed).map Prod.fst
        let p := (p.clearChecks spared).freezeCategories (verdicts.flatMap fun v => v.2.reads)
        let unchecked := p.rules.filter p.isUnchecked
        .done ⟨spared.length, harmless.length + unchecked.length, harmless.length⟩
          (p.dropHistory unchecked)

end Program

end ConstraintRules
