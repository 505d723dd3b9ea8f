import ConstraintRules.Proofs.WellFormed
import ConstraintRules.Pipeline

/-! Activation facts, search plans and join graphs are read off the bare program,
whatever passes have noted before. -/

namespace ConstraintRules

open Activation

theorem mapM_map_eq {α β γ : Type} {f : α → Option γ} {f' : β → Option γ} {g : α → β}
    (h : ∀ x, f' (g x) = f x) (xs : List α) : (xs.map g).mapM f' = xs.mapM f := by
  induction xs with
  | nil => rfl
  | cons x xs ih => rw [List.map_cons, List.mapM_cons, List.mapM_cons, h, ih]

theorem mapM_option_map {α β γ : Type} (f : α → Option β) (g : β → γ) (xs : List α) :
    (xs.mapM fun x => (f x).map g) = (xs.mapM f).map (List.map g) := by
  induction xs with
  | nil => rfl
  | cons x xs ih =>
    rw [List.mapM_cons, List.mapM_cons, ih]
    cases f x with
    | none => rfl
    | some y => cases xs.mapM f <;> rfl

namespace Program

theorem active_bare (p : Program) : p.bare.active = p.active.map Occurrence.bare := by
  rw [active, bare, List.filter_map]
  rfl

theorem resolve?_bare (p : Program) (ids : List OccurrenceId) :
    p.bare.resolve? ids = (p.resolve? ids).map (List.map Occurrence.bare) := by
  rw [resolve?, resolve?, ← mapM_option_map]
  congr
  funext id
  exact p.occurrence?_bare id

theorem partners?_bare (p : Program) (o : Occurrence) :
    p.bare.partners? o.bare = p.partners? o := by
  rw [partners?, partners?, show o.bare.rule = o.rule from rfl, rule?_bare, Option.map_map]
  rfl

theorem modifierFacts_bare (p : Program) : p.bare.modifierFacts = p.modifierFacts := by
  rw [modifierFacts, modifierFacts, bare, List.flatMap_map]
  rfl

theorem activationFacts_bare (p : Program) : p.bare.activationFacts = p.activationFacts := by
  rw [activationFacts, activationFacts, active_bare, List.map_map]
  rfl

theorem bodyFacts_bare (p : Program) : p.bare.bodyFacts = p.bodyFacts := by
  rw [bodyFacts, bodyFacts, bare, List.flatMap_map]
  rfl

theorem callFacts_bare (p : Program) : p.bare.callFacts = p.callFacts := by
  rw [callFacts, callFacts, modifierFacts_bare, activationFacts_bare, bodyFacts_bare]

theorem constraintIds_eq {p q : Program} (h : q.bare = p.bare) :
    q.constraints.map Constraint.id = p.constraints.map Constraint.id := by
  have hids := congrArg (fun t : Program => t.constraints.map Constraint.id) h
  simp only [bare, List.map_map] at hids
  exact hids

theorem constraintNodes_eq {p q : Program} (h : q.bare = p.bare) :
    (q.constraints.map fun c => Node.constraint c.id) =
      p.constraints.map fun c => .constraint c.id := by
  have hnodes := congrArg (List.map Node.constraint) (constraintIds_eq h)
  rwa [List.map_map, List.map_map] at hnodes

theorem rules_activeOf_eq {p q : Program} (h : q.bare = p.bare) (c : ConstraintId) :
    (q.activeOf c).map Occurrence.rule = (p.activeOf c).map Occurrence.rule := by
  have hbare : ∀ t : Program, (t.bare.activeOf c).map Occurrence.rule =
      (t.activeOf c).map Occurrence.rule := fun t => by
    rw [activeOf, active_bare, List.filter_map, List.map_map]
    rfl
  rw [← hbare q, h, hbare p]

theorem bodies_bare (p : Program) : p.bare.bodies = p.bodies := by
  rw [bodies, bare, List.map_map]
  rfl

theorem danglingCall?_bare (p : Program) : p.bare.danglingCall? = p.danglingCall? := by
  have hknown : ∀ c, (p.bare.constraint? c).isSome = (p.constraint? c).isSome := fun c => by
    rw [constraint?_bare, Option.isSome_map]
  simp only [danglingCall?, hknown]
  rw [bare, List.findSome?_map]
  rfl

theorem partnerFacts?_bare (p : Program) : p.bare.partnerFacts? = p.partnerFacts? := by
  unfold partnerFacts?
  rw [active_bare]
  congr 1
  apply mapM_map_eq
  intro o
  rw [partners?_bare]
  cases p.partners? o with
  | none => rfl
  | some ids =>
    show (p.bare.resolve? ids).bind _ = (p.resolve? ids).bind _
    rw [resolve?_bare]
    cases p.resolve? ids with
    | none => rfl
    | some us => simp [Occurrence.bare]

theorem removalFacts?_bare (p : Program) : p.bare.removalFacts? = p.removalFacts? := by
  unfold removalFacts?
  rw [active_bare]
  congr 1
  apply mapM_map_eq
  intro o
  rw [show o.bare.rule = o.rule from rfl, rule?_bare]
  cases p.rule? o.rule with
  | none => rfl
  | some r =>
    show (p.bare.resolve? r.head).bind _ = (p.resolve? r.head).bind _
    rw [resolve?_bare]
    cases p.resolve? r.head with
    | none => rfl
    | some us =>
      rw [Option.map_some, Option.bind_some, Option.bind_some, List.filter_map, List.map_map]
      rfl

theorem stackFacts?_bare (p : Program) : p.bare.stackFacts? = p.stackFacts? := by
  unfold stackFacts?
  rw [active_bare]
  congr 1
  apply mapM_map_eq
  intro o
  rw [show o.bare.rule = o.rule from rfl, rule?_bare]
  cases p.rule? o.rule <;> rfl

theorem observationSession?_bare (p : Program) :
    p.bare.observationSession? = p.observationSession? := by
  rw [observationSession?, observationSession?, partnerFacts?_bare, danglingCall?_bare,
    callFacts_bare]

theorem callSession?_bare (p : Program) (further : Option (List Fact)) :
    p.bare.callSession? further = p.callSession? further := by
  rw [callSession?, callSession?, danglingCall?_bare, callFacts_bare]

theorem searches?_bare (p : Program) (r : Rule) (link : Option HeadLink) (o : Occurrence)
    (bound : List VarId) (us : List Occurrence) :
    p.bare.searches? r.bare link o.bare bound (us.map Occurrence.bare) =
      p.searches? r link o bound us := by
  induction us generalizing bound with
  | nil => rfl
  | cons u us ih =>
    rw [List.map_cons, searches?, searches?]
    show (r.guardOf? u.head).bind _ = (r.guardOf? u.head).bind _
    congr 1
    funext guard
    show (p.bare.constraint? u.constraint).bind _ = (p.constraint? u.constraint).bind _
    rw [constraint?_bare]
    cases p.constraint? u.constraint with
    | none => rfl
    | some k =>
      show (p.bare.searches? r.bare link o.bare (bound ++ u.args) (us.map Occurrence.bare)).bind _ =
        (p.searches? r link o (bound ++ u.args) us).bind _
      rw [ih]
      rfl

theorem occurrencePlan?_bare (p : Program) (arrayIndexing : Bool) (o : Occurrence) :
    p.bare.occurrencePlan? arrayIndexing o.bare = p.occurrencePlan? arrayIndexing o := by
  unfold occurrencePlan?
  rw [show o.bare.rule = o.rule from rfl, rule?_bare, partners?_bare]
  cases p.rule? o.rule with
  | none => rfl
  | some r =>
    show (p.bare.resolve? r.head).bind _ = (p.resolve? r.head).bind _
    rw [resolve?_bare]
    cases p.resolve? r.head with
    | none => rfl
    | some head =>
      cases p.partners? o with
      | none => rfl
      | some ids =>
        show (p.bare.resolve? ids).bind _ = (p.resolve? ids).bind _
        rw [resolve?_bare]
        cases p.resolve? ids with
        | none => rfl
        | some us =>
          rw [Option.map_some, Option.bind_some, Option.bind_some, ← searches?_bare p r,
            List.length_map, List.map_map]
          rfl

theorem searchPlan?_bare (p : Program) (arrayIndexing : Bool) :
    p.bare.searchPlan? arrayIndexing = p.searchPlan? arrayIndexing := by
  rw [searchPlan?, searchPlan?, active_bare, mapM_map_eq (p.occurrencePlan?_bare arrayIndexing)]

theorem negativeVars?_bare (p : Program) (n : NegativeHead) :
    p.bare.negativeVars? n = p.negativeVars? n := by
  rw [negativeVars?, negativeVars?, resolve?_bare, Option.map_map]
  congr 1
  funext us
  simp [Occurrence.bare, List.flatMap_map]

theorem joinGraph?_bare (p : Program) (r : Rule) : p.bare.joinGraph? r.bare = p.joinGraph? r := by
  unfold joinGraph?
  rw [show p.bare.negativeVars? = p.negativeVars? from funext p.negativeVars?_bare]
  show (p.bare.resolve? r.head).bind _ = (p.resolve? r.head).bind _
  rw [resolve?_bare]
  cases p.resolve? r.head with
  | none => rfl
  | some us =>
    rw [Option.map_some, Option.bind_some, Option.bind_some, List.map_map]
    rfl

end Program
end ConstraintRules
