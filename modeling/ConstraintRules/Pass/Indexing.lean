import ConstraintRules.Pass.Outcome
import ConstraintRules.Pass.SearchPlan

/-! Indexing: lookups for every active occurrence and a master category for every
constraint. A frozen category stops the pass. -/

namespace ConstraintRules

structure LookupStats where
  lookups : Nat
  categories : Nat
  keyed : Nat
  neverStored : Nat
  directAccess : Nat
deriving DecidableEq

def LookupStats.ofPlan (plan : List Search) (categories : Nat) : LookupStats where
  lookups := plan.length
  categories := categories
  keyed := plan.countP fun s => s.path.kind.isKeyed
  neverStored := plan.countP fun s => decide (s.path = .neverStored)
  directAccess := plan.countP fun s => s.direct.isSome

namespace Program

def clearLookups (p : Program) : Program :=
  { p with
    occurrences := p.occurrences.map fun o => if o.isActive then { o with lookups := [] } else o }

/-- Enters a search into its category and adds the lookup to the active occurrence. -/
def record (p : Program) (s : Search) : Except LookupError Program :=
  match p.constraint? s.target with
  | none => .ok p
  | some c =>
    match c.categories.enter s.path s.partner with
    | .error e => .error e
    | .ok (category, categories) =>
      let lookup : Lookup := { partner := s.partner, path := s.path, category, direct := s.direct }
      .ok ((p.modifyConstraint s.target fun c => { c with categories }).modifyOccurrence s.active
        fun o => { o with lookups := o.lookups ++ [lookup] })

/-- Records searches up to the first that cannot be. -/
def recordAll (p : Program) : List Search → Option LookupError × Program
  | [] => (none, p)
  | s :: rest =>
    match p.record s with
    | .error e => (some e, p)
    | .ok p => p.recordAll rest

def electMasters (p : Program) : Program :=
  { p with constraints := p.constraints.map fun c =>
      { c with categories := (c.categories.electMaster c.mayBeStored).2 } }

def categoryCount (p : Program) : Nat := (p.constraints.flatMap fun c => c.categories.list).length

/-- Assigns lookups and master categories. -/
def assignLookups (arrayIndexing : Bool) (p : Program) : Outcome LookupStats :=
  match p.searchPlan? arrayIndexing with
  | none => .dangling
  | some plan =>
    match p.clearLookups.recordAll plan with
    | (some e, q) => .failed (.lookup e) q
    | (none, q) =>
      let q := q.electMasters
      .done (.ofPlan plan q.categoryCount) q

end Program

end ConstraintRules
