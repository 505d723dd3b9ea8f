import ConstraintRules.Proofs.ActivationClosure

/-! Activation steps between constraints. The paths of the activation graph from
constraint to constraint are chains of these steps. -/

namespace ConstraintRules

open Activation

namespace Program

/-- A rule in which `x` has an active occurrence activates `y` directly. -/
def StepsTo (p : Program) (x y : ConstraintId) : Prop := ∃ r, p.Fires x r ∧ p.BodyActivates r y

variable {p : Program}

/-- The closure of a rule is what chains of steps reach from what its body activates. -/
theorem activates_iff {r : RuleId} {c : ConstraintId} :
    p.Activates r c ↔ ∃ x, p.BodyActivates r x ∧ Relation.ReflTransGen p.StepsTo x c := by
  constructor
  · intro h
    induction h with
    | body hc => exact ⟨_, hc, .refl⟩
    | step _ hs hc ih =>
      obtain ⟨x, hx, hchain⟩ := ih
      exact ⟨x, hx, hchain.tail ⟨_, hs, hc⟩⟩
  · rintro ⟨x, hx, hchain⟩
    induction hchain with
    | refl => exact .body hx
    | tail _ hstep ih =>
      obtain ⟨s, hs, hc⟩ := hstep
      exact .step ih hs hc

theorem path_of_stepsTo {x y : ConstraintId} (h : p.StepsTo x y) :
    Relation.TransGen p.Link (.constraint x) (.constraint y) := by
  obtain ⟨r, hr, hy⟩ := h
  exact path_of_bodyActivates (Or.inr (.single (.fires hr))) hy

theorem path_iff_stepsTo {x y : ConstraintId} :
    Relation.TransGen p.Link (.constraint x) (.constraint y) ↔ Relation.TransGen p.StepsTo x y := by
  constructor
  · intro h
    obtain ⟨n, hn, hpath⟩ := Relation.TransGen.head'_iff.mp h
    cases hn with
    | fires hr =>
      -- the first edge leads to a body, and the rest of the path stays in its closure
      rcases Relation.reflTransGen_iff_eq_or_transGen.mp hpath with he | hpath
      · cases he
      · obtain ⟨z, hz, hchain⟩ := activates_iff.mp (path_iff_reaches.mp hpath)
        exact .head' ⟨_, hr, hz⟩ hchain
  · intro h
    induction h with
    | single hstep => exact path_of_stepsTo hstep
    | tail _ hstep ih => exact ih.trans (path_of_stepsTo hstep)

theorem leads_callFacts (h : p.WellFormed) {facts : List Fact}
    (hfacts : ∀ fact ∈ facts, fact.edges = []) {x y : ConstraintId} :
    Ledger.Leads { told := p.callFacts ++ facts } (.constraint x) (.constraint y) ↔
      Relation.TransGen p.StepsTo x y := by
  rw [Ledger.Leads, edges_callFacts_append h hfacts, path_iff_stepsTo]

/-- Loops do not lengthen paths: with them a node only reaches itself besides. -/
theorem transGen_or_loop {α : Type} {R : α → α → Prop} {S : α → Prop} {x y : α} :
    Relation.TransGen (fun a b => R a b ∨ (S a ∧ a = b)) x y ↔
      Relation.TransGen R x y ∨ (S x ∧ x = y) := by
  constructor
  · intro h
    induction h with
    | single hxy => exact hxy.imp_left .single
    | tail _ hbc ih =>
      rcases ih with hxb | ⟨hx, rfl⟩
      · rcases hbc with hbc | ⟨_, rfl⟩
        · exact Or.inl (hxb.tail hbc)
        · exact Or.inl hxb
      · exact hbc.imp_left .single
  · rintro (h | hloop)
    · exact Relation.TransGen.mono (fun _ _ => Or.inl) x y h
    · exact .single (Or.inr hloop)

end Program

end ConstraintRules
