import ConstraintRules.Proofs.ActivationSteps
import ConstraintRules.Proofs.Preparation
import Mathlib.Data.Set.Card
import Mathlib.Order.Bounds.Basic

/-! Removees are the least solution of the removal equations, reached along chains
of activation steps. -/

namespace ConstraintRules

open Activation

namespace Program

/-- The removal equations. What a firing removes is accounted for by the constraint that fires,
and so is whatever the constraints activated by the body account for. -/
structure AccountsForRemoval (p : Program) (R : ConstraintId → Set ConstraintId) : Prop where
  removed : ∀ o ∈ p.active, ∀ u ∈ p.occurrences,
    u.rule = o.rule → u.head = .positive → u.removed = true →
    u.constraint ∈ R o.constraint
  called : ∀ o ∈ p.active, ∀ (z : ConstraintId) (args : List VarId), p.Runs o.rule (.call z args) →
    R z ⊆ R o.constraint
  triggered : ∀ o ∈ p.active, p.Triggers o.rule → ∀ z, p.Reactive z → R z ⊆ R o.constraint
  foreign : ∀ o ∈ p.active, p.Runs o.rule .pessimistic → ∀ z, p.Exported z → R z ⊆ R o.constraint

/-- A chain of activation steps from `x` ends at a constraint whose firing
removes an instance of `c`. -/
def MayRemove (p : Program) (x c : ConstraintId) : Prop :=
  ∃ y, Relation.ReflTransGen p.StepsTo x y ∧ p.Consumes y c

variable {p : Program}

theorem MayRemove.of_bodyActivates {o : Occurrence} {z c : ConstraintId} (ho : o ∈ p.active)
    (hz : p.BodyActivates o.rule z) (h : p.MayRemove z c) : p.MayRemove o.constraint c := by
  obtain ⟨y, hchain, hc⟩ := h
  exact ⟨y, .head ⟨o.rule, ⟨o, ho, rfl, rfl⟩, hz⟩ hchain, hc⟩

theorem mayRemove_accounts (p : Program) : p.AccountsForRemoval fun x => {c | p.MayRemove x c} where
  removed o ho u hu hrule hpos hrem :=
    ⟨o.constraint, .refl, o, ho, rfl, u, hu, hrule, hpos, hrem, rfl⟩
  called _ ho _ args hcall _ hc := .of_bodyActivates ho (Or.inl ⟨args, hcall⟩) hc
  triggered _ ho htrigger _ hreact _ hc :=
    .of_bodyActivates ho (Or.inr (Or.inl ⟨htrigger, hreact⟩)) hc
  foreign _ ho hforeign _ hexp _ hc := .of_bodyActivates ho (Or.inr (Or.inr ⟨hforeign, hexp⟩)) hc

theorem AccountsForRemoval.subset_of_stepsTo {R : ConstraintId → Set ConstraintId}
    (h : p.AccountsForRemoval R) {x y : ConstraintId} (hxy : p.StepsTo x y) : R y ⊆ R x := by
  obtain ⟨_, ⟨o, ho, rfl, rfl⟩, ⟨args, hcall⟩ | ⟨htrigger, hreact⟩ | ⟨hforeign, hexp⟩⟩ := hxy
  · exact h.called o ho y args hcall
  · exact h.triggered o ho htrigger y hreact
  · exact h.foreign o ho hforeign y hexp

theorem AccountsForRemoval.mayRemove {R : ConstraintId → Set ConstraintId}
    (h : p.AccountsForRemoval R) {x c : ConstraintId} (hc : p.MayRemove x c) : c ∈ R x := by
  obtain ⟨y, hchain, o, ho, rfl, u, hu, hrule, hpos, hrem, rfl⟩ := hc
  -- from the far end of the chain, where the removal is the solution's own
  induction hchain using Relation.ReflTransGen.head_induction_on with
  | refl => exact h.removed o ho u hu hrule hpos hrem
  | head hstep _ ih => exact h.subset_of_stepsTo hstep ih

theorem mayRemove_isLeast (p : Program) :
    IsLeast {R : ConstraintId → Set ConstraintId | p.AccountsForRemoval R} fun x =>
      {c | p.MayRemove x c} :=
  ⟨p.mayRemove_accounts, fun _ hR _ _ hc => AccountsForRemoval.mayRemove hR hc⟩

theorem MayRemove.declared (h : p.WellFormed) {x c : ConstraintId} (hc : p.MayRemove x c) :
    (∃ k ∈ p.constraints, k.id = x) ∧ ∃ k ∈ p.constraints, k.id = c := by
  have hdeclared : ∀ o ∈ p.occurrences, ∃ k ∈ p.constraints, k.id = o.constraint := fun o ho => by
    obtain ⟨k, hk, _⟩ := h.declared o ho
    exact ⟨k, List.mem_of_getElem? hk, h.id_of_constraint? hk⟩
  obtain ⟨y, hchain, o, ho, rfl, u, hu, _, _, _, rfl⟩ := hc
  refine ⟨?_, hdeclared u hu⟩
  rcases hchain.cases_head with rfl | ⟨_, ⟨_, ⟨o', ho', rfl, _⟩, _⟩, _⟩
  · exact hdeclared o (mem_active.mp ho).1
  · exact hdeclared o' (mem_active.mp ho').1

section Session

variable {facts : List Fact} {s : Session}

/-- Removals draw no edges, so a removal follows from the facts of a
program along chains of steps. -/
theorem removes_loaded_iff (h : p.WellFormed) (hfacts : p.removalFacts? = some facts)
    {x c : ConstraintId} :
    Ledger.Removes { told := p.callFacts ++ facts } (.constraint x) c ↔ p.MayRemove x c := by
  obtain ⟨facts', hfacts', hmem⟩ := removalFacts?_eq_some h.toArranged
  rw [hfacts] at hfacts'
  cases hfacts'
  have hedges : ∀ fact ∈ facts, fact.edges = [] := fun fact hfact => by
    obtain ⟨_, _, _, rfl⟩ := (hmem fact).mp hfact
    rfl
  have hcovers : ∀ y,
      Ledger.Covers { told := p.callFacts ++ facts } (.constraint x) (.constraint y) ↔
      Relation.ReflTransGen p.StepsTo x y := fun y => by
    rw [Ledger.Covers, leads_callFacts h hedges, Relation.reflTransGen_iff_eq_or_transGen,
      Node.constraint.injEq]
  have htold : ∀ y, Fact.related .removes y (.constraint c) ∈ p.callFacts ++ facts ↔
      ∃ z, y = .constraint z ∧ p.Consumes z c := fun y => by
    rw [List.mem_append, mem_callFacts h, hmem]
    constructor
    · rintro (ht | ⟨z, _, hz, he⟩)
      · cases ht
      · cases he
        exact ⟨z, rfl, hz⟩
    · rintro ⟨z, rfl, hz⟩
      exact Or.inr ⟨z, c, hz, rfl⟩
  constructor
  · rintro ⟨_, hy, hfact⟩
    obtain ⟨z, rfl, hz⟩ := (htold _).mp hfact
    exact ⟨z, (hcovers z).mp hy, hz⟩
  · rintro ⟨z, hchain, hz⟩
    exact ⟨.constraint z, (hcovers z).mpr hchain, (htold _).mpr ⟨z, rfl, hz⟩⟩

theorem mem_removeesOf (h : p.WellFormed) (hfacts : p.removalFacts? = some facts)
    (hs : s.facts.Reflects { told := p.callFacts ++ facts }) {x c : ConstraintId} :
    c ∈ p.removeesOf s x ↔ p.MayRemove x c := by
  have hholds : s.holds (.related .removes (.constraint x) (.constraint c)) = true ↔
      p.MayRemove x c := by
    rw [Session.holds_eq, hs.holds_iff]
    exact removes_loaded_iff h hfacts
  rw [removeesOf, List.mem_filter, hholds, and_iff_right_iff_imp]
  intro hc
  obtain ⟨k, hk, rfl⟩ := (hc.declared h).2
  exact List.mem_map_of_mem hk

end Session

theorem WellFormed.ncard_nonempty (h : p.WellFormed) {f : ConstraintId → List ConstraintId}
    (hf : ∀ x, f x ≠ [] → ∃ k ∈ p.constraints, k.id = x) :
    {x | f x ≠ []}.ncard = p.constraints.countP fun k => !(f k.id).isEmpty := by
  have hset : {x | f x ≠ []} =
      ((p.constraints.map Constraint.id).filter fun x => !(f x).isEmpty).toFinset := by
    ext x
    simp only [Set.mem_ofPred_eq, List.coe_toFinset, List.mem_filter, List.mem_map,
      Bool.not_eq_true', List.isEmpty_eq_false_iff]
    exact ⟨fun hx => ⟨hf x hx, hx⟩, fun hx => hx.2⟩
  have hnodup : (p.constraints.map Constraint.id).Nodup :=
    h.constraints_pairwise.imp fun hlt he => by
      rw [he] at hlt
      exact Nat.lt_irrefl _ hlt
  rw [hset, Set.ncard_coe_finset, List.toFinset_card_of_nodup (hnodup.filter _),
    List.countP_eq_length_filter, List.filter_map, List.length_map]
  rfl

/-- The removees that are listed are the least solution of the removal equations. -/
theorem findRemovees_least (steps : List BuildStep) : ∃ (stats : RemovalStats)
    (removees : ConstraintId → List ConstraintId),
    (build steps).findRemovees = .done stats { build steps with
      constraints := (build steps).constraints.map fun k => { k with removees := removees k.id } } ∧
    IsLeast {R : ConstraintId → Set ConstraintId | (build steps).AccountsForRemoval R}
      (fun x => {c | c ∈ removees x}) ∧
    (∀ x, (removees x).Pairwise fun c d => c.index < d.index) ∧
    stats.removers = {x | removees x ≠ []}.ncard ∧
    stats.pairs = ((build steps).constraints.map fun k => (removees k.id).length).sum := by
  have h := build_wellFormed steps
  obtain ⟨facts, hfacts, _⟩ := removalFacts?_eq_some h.toArranged
  obtain ⟨s, hs, hdone⟩ :=
    noteCalls_eq h hfacts (build steps).listRemovees (build steps).removalStats
  have hmem : ∀ x c, c ∈ (build steps).removeesOf s x ↔ (build steps).MayRemove x c := fun x c =>
    mem_removeesOf h hfacts hs
  have hwithin : ∀ x, (build steps).removeesOf s x ≠ [] →
      ∃ k ∈ (build steps).constraints, k.id = x := fun x hx => by
    obtain ⟨c, hc⟩ := List.exists_mem_of_ne_nil _ hx
    exact (((hmem x c).mp hc).declared h).1
  refine ⟨_, (build steps).removeesOf s, hdone, ?_, fun x => h.constraints_pairwise.filter _,
    (h.ncard_nonempty hwithin).symm, List.length_flatMap⟩
  simp only [hmem]
  exact mayRemove_isLeast _

end Program

end ConstraintRules
