import ConstraintRules.Proofs.ActivationSteps
import ConstraintRules.Proofs.Preparation

/-! Recursion is cleared exactly. A mark stays if a built-in needs the stack or a
chain of steps leads back. -/

namespace ConstraintRules

open Activation

namespace Program

variable {p : Program}

/-- The node of a constraint that fires a body with a built-in that needs the stack. -/
def NeedsStackAt (p : Program) : Node → Prop
  | .constraint c => p.NeedsStack c
  | .body _ | .trigger | .foreign => False

section Session

variable {facts : List Fact}

theorem mem_stackFacts_edges (h : p.WellFormed) (hfacts : p.stackFacts? = some facts) {x y : Node} :
    (x, y) ∈ facts.flatMap Fact.edges ↔ p.NeedsStackAt x ∧ x = y := by
  obtain ⟨facts', hfacts', hmem⟩ := stackFacts?_eq_some h.toArranged
  rw [hfacts] at hfacts'
  cases hfacts'
  simp only [List.mem_flatMap, hmem]
  constructor
  · rintro ⟨_, ⟨c, hc, rfl⟩, he⟩
    cases List.mem_singleton.mp he
    exact ⟨hc, rfl⟩
  · rintro ⟨hx, rfl⟩
    cases x with
    | constraint c => exact ⟨_, ⟨c, hx, rfl⟩, List.mem_singleton_self _⟩
    | body _ | trigger | foreign => exact hx.elim

/-- The facts on the stack draw loops, which add nothing to a path but the loops themselves. -/
theorem leads_back_iff (h : p.WellFormed) (hfacts : p.stackFacts? = some facts) {c : ConstraintId} :
    Ledger.Leads { told := p.callFacts ++ facts } (.constraint c) (.constraint c) ↔
      p.NeedsStack c ∨ Relation.TransGen p.StepsTo c c := by
  have hedges : (fun x y => (x, y) ∈ Ledger.edges { told := p.callFacts ++ facts }) =
      fun x y => p.Link x y ∨ (p.NeedsStackAt x ∧ x = y) := by
    funext x y
    rw [Ledger.edges, List.flatMap_append, List.mem_append, mem_edges_callFacts h,
      mem_stackFacts_edges h hfacts]
  rw [Ledger.Leads, hedges, transGen_or_loop, path_iff_stepsTo, or_comm]
  simp only [NeedsStackAt, and_true]

theorem activatesItself_iff (h : p.WellFormed) (hfacts : p.stackFacts? = some facts) {s : Session}
    (hs : s.facts.Reflects { told := p.callFacts ++ facts }) {c : ConstraintId} :
    s.activatesItself c = true ↔ p.NeedsStack c ∨ Relation.TransGen p.StepsTo c c := by
  rw [Session.activatesItself, Session.holds_eq, hs.holds_iff]
  exact leads_back_iff h hfacts

end Session

theorem countP_and_not_add {α : Type} (f g : α → Bool) (xs : List α) :
    xs.countP (fun x => f x && !g x) + xs.countP (fun x => f x && g x) = xs.countP f := by
  rw [List.countP_eq_length_filter (p := f), List.length_eq_countP_add_countP g, List.countP_filter,
    List.countP_filter, Nat.add_comm]
  simp [Bool.and_comm]

/-- The recursion mark of a constraint stays exactly if it fires a built-in that needs the stack
or a chain of steps leads back to it. -/
theorem clearRecursion_exact (steps : List BuildStep) :
    ∃ (stats : RecursionStats) (recursive : ConstraintId → Bool),
    (build steps).clearRecursion = .done stats { build steps with
      constraints :=
        (build steps).constraints.map fun k => { k with isRecursive := recursive k.id } } ∧
    (∀ c, recursive c = true ↔ (build steps).NeedsStack c ∨
      Relation.TransGen (build steps).StepsTo c c) ∧
    stats.recursive = (build steps).constraints.countP (fun k => recursive k.id) ∧
    stats.cleared + stats.recursive = (build steps).constraints.length := by
  have h := build_wellFormed steps
  obtain ⟨facts, hfacts, _⟩ := stackFacts?_eq_some h.toArranged
  obtain ⟨s, hs, hdone⟩ := noteCalls_eq h hfacts Session.clearMark (build steps).recursionStats
  have hmarked : ∀ k ∈ (build steps).constraints, k.isRecursive = true := fun k hk => by
    rw [← (build_unannotated steps).constraints k hk]
    rfl
  have hmap : (build steps).constraints.map s.clearMark =
      (build steps).constraints.map fun k => { k with isRecursive := s.activatesItself k.id } := by
    apply List.map_congr_left
    intro k hk
    rw [Session.clearMark, hmarked k hk, Bool.true_and]
  rw [hmap] at hdone
  refine ⟨_, s.activatesItself, hdone, fun c => activatesItself_iff h hfacts hs, ?_, ?_⟩
  · refine List.countP_congr fun k hk => ?_
    rw [hmarked k hk, Bool.true_and]
  · exact (countP_and_not_add _ _ _).trans (List.countP_eq_length.mpr hmarked)

end Program

end ConstraintRules
