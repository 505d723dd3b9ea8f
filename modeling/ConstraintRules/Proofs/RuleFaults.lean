import ConstraintRules.Proofs.RuleTexts
import Mathlib.Data.List.Find

/-! When a rule is refused, and what it adds otherwise. The first step that is
misused decides, then the head and the guards. -/

namespace ConstraintRules

namespace Program

theorem misapplied?_eq_some_iff {p : Program} {c : ConstraintId} {n : Nat} {e : ModelError} :
    p.misapplied? c n = some e ↔ (p.constraint? c = none ∧ e = .unknownConstraint c) ∨
      ∃ k, p.constraint? c = some k ∧ k.arity ≠ n ∧ e = .arityMismatch (p.nameOf k) k.arity n := by
  unfold misapplied?
  cases p.constraint? c with
  | none => simp [eq_comm]
  | some k => by_cases hk : k.arity = n <;> simp [hk, eq_comm (a := e)]

end Program

namespace RuleStep

variable {p : Program} {rule : String} {before steps : List RuleStep} {s : RuleStep}
  {e : ModelError}

def AddsPositive (p : Program) (s : RuleStep) : Prop := s.isPositive = true ∧ s.Fits p

/-- What is wrong with a step: the constraint or its number of arguments, or a mark before any
positive occurrence. -/
inductive Misuses (p : Program) (rule : String) (before : List RuleStep) :
    RuleStep → ModelError → Prop
  | unknownConstraint {s : RuleStep} {c : ConstraintId} {args : List String} :
    s.application? = some (c, args) →
    p.constraint? c = none → Misuses p rule before s (.unknownConstraint c)
  | arityMismatch {s : RuleStep} {c : ConstraintId} {args : List String} {k : Constraint} :
    s.application? = some (c, args) → p.constraint? c = some k → k.arity ≠ args.length →
    Misuses p rule before s (.arityMismatch (p.nameOf k) k.arity args.length)
  | danglingPassive : (∀ s ∈ before, ¬s.AddsPositive p) →
    Misuses p rule before passive (.danglingPassive rule)

def WellUsed (p : Program) (rule : String) (steps : List RuleStep) : Prop :=
  ∀ before s after e, steps = before ++ s :: after → ¬Misuses p rule before s e

def FirstMisuse (p : Program) (rule : String) (steps : List RuleStep) (e : ModelError) : Prop :=
  ∃ before s after, steps = before ++ s :: after ∧ WellUsed p rule before ∧
    Misuses p rule before s e

theorem wellUsed_concat :
    WellUsed p rule (steps ++ [s]) ↔ WellUsed p rule steps ∧ ∀ e, ¬Misuses p rule steps s e := by
  constructor
  · intro h
    refine ⟨fun before t after e hsplit => ?_, fun e => h steps s [] e rfl⟩
    exact h before t (after ++ [s]) e (by simp [hsplit])
  · rintro ⟨hsteps, hs⟩ before t after e hsplit
    rcases concat_eq_append_cons_iff.mp hsplit with ⟨rfl, rfl, _⟩ | ⟨rest, hrest, _⟩
    · exact hs e
    · exact hsteps before t rest e hrest

theorem firstMisuse_concat : FirstMisuse p rule (steps ++ [s]) e ↔
    FirstMisuse p rule steps e ∨ (WellUsed p rule steps ∧ Misuses p rule steps s e) := by
  constructor
  · rintro ⟨before, t, after, hsplit, hbefore, ht⟩
    rcases concat_eq_append_cons_iff.mp hsplit with ⟨rfl, rfl, _⟩ | ⟨rest, hrest, _⟩
    · exact Or.inr ⟨hbefore, ht⟩
    · exact Or.inl ⟨before, t, rest, hrest, hbefore, ht⟩
  · rintro (⟨before, t, after, rfl, hbefore, ht⟩ | ⟨hsteps, hs⟩)
    · exact ⟨before, t, after ++ [s], by simp, hbefore, ht⟩
    · exact ⟨steps, s, [], rfl, hsteps, hs⟩

theorem misuses_of_application {c : ConstraintId} {args : List String}
    (ha : s.application? = some (c, args)) :
    Misuses p rule before s e ↔ p.misapplied? c args.length = some e := by
  rw [Program.misapplied?_eq_some_iff]
  constructor
  · rintro (⟨ha', hc⟩ | ⟨ha', hk, hne⟩ | _)
    · cases ha.symm.trans ha'
      exact Or.inl ⟨hc, rfl⟩
    · cases ha.symm.trans ha'
      exact Or.inr ⟨_, hk, hne, rfl⟩
    · cases ha
  · rintro (⟨hc, rfl⟩ | ⟨k, hk, hne, rfl⟩)
    · exact .unknownConstraint ha hc
    · exact .arityMismatch ha hk hne

theorem misuses_of_no_application (ha : s.application? = none) : Misuses p rule before s e ↔
    s = passive ∧ (∀ t ∈ before, ¬t.AddsPositive p) ∧ e = .danglingPassive rule := by
  constructor
  · rintro (⟨ha', _⟩ | ⟨ha', _⟩ | hnone)
    · cases ha.symm.trans ha'
    · cases ha.symm.trans ha'
    · exact ⟨rfl, hnone, rfl⟩
  · rintro ⟨rfl, hnone, rfl⟩
    exact .danglingPassive hnone

theorem WellUsed.fits (h : WellUsed p rule steps) (hs : s ∈ steps) : s.Fits p := by
  obtain ⟨before, after, hsplit⟩ := List.append_of_mem hs
  refine fits_iff.mpr fun a ha => Option.eq_none_iff_forall_ne_some.mpr fun e he => ?_
  exact h before s after e hsplit ((misuses_of_application ha).mpr he)

theorem WellUsed.accepted_eq (h : WellUsed p rule steps) : accepted p steps = steps :=
  List.filter_eq_self.mpr fun _ hs => decide_eq_true (h.fits hs)

theorem WellUsed.mentions_eq (h : WellUsed p rule steps) :
    mentions p steps = steps.flatMap names := by
  rw [mentions, h.accepted_eq]

theorem positiveHead_eq_nil {ν : String → VarId} :
    positiveHead ν steps = [] ↔ ∀ s ∈ steps, s.isPositive = false := by
  induction steps with
  | nil => simp
  | cons s rest ih => cases s <;> simp [isPositive, ih]

end RuleStep

open RuleStep

namespace Draft

variable {p : Program} {d : Draft} {s : RuleStep} {name : String} {steps : List RuleStep}
  {e : ModelError}

/-- What taking a step objects to. -/
def objection? (p : Program) (d : Draft) (s : RuleStep) : Option ModelError :=
  match s.application? with
  | some (c, args) => p.misapplied? c args.length
  | none => if s = passive ∧ d.positive = [] then some (.danglingPassive d.name) else none

theorem take_misuse (p : Program) (d : Draft) (s : RuleStep) :
    (d.take p s).misuse = (d.misuse <|> d.objection? p s) := by
  cases s with
  | kept c args | removed c args | negated c args | call c args =>
    cases hm : p.misapplied? c args.length with
    | some e => simp [take, apply, hm, fail, objection?, application?]
    | none => simp [take, apply, hm, varList, addGoal, objection?, application?]
  | passive => simp [take, markPassive_eq, objection?, application?]
  | negatedEqual left right =>
    simp [take, addNegatedGuard_eq, equality, var, objection?, application?]
  | guardEqual left right => simp [take, equality, var, objection?, application?]
  | guardTest vars => simp [take, varList, objection?, application?]
  | builtIn _ | triggering | pessimistic | free => simp [take, addGoal, objection?, application?]

theorem objection?_eq_some_iff {before : List RuleStep}
    (hd : d.positive = [] ↔ ∀ t ∈ before, ¬t.AddsPositive p) :
    d.objection? p s = some e ↔ Misuses p d.name before s e := by
  unfold objection?
  cases ha : s.application? with
  | some a => exact (misuses_of_application ha).symm
  | none =>
    rw [misuses_of_no_application ha, ← hd]
    by_cases hs : s = passive <;> by_cases hnil : d.positive = [] <;> simp [hs, hnil, eq_comm]

theorem name_ofSteps (p : Program) (name : String) (steps : List RuleStep) :
    (ofSteps p name steps).name = name :=
  congrArg Draft.name (ofSteps_eq p name steps)

theorem positive_ofSteps_eq_nil :
    (ofSteps p name steps).positive = [] ↔ ∀ s ∈ steps, ¬s.AddsPositive p := by
  rw [show (ofSteps p name steps).positive = _ from congrArg positive (ofSteps_eq p name steps)]
  change positiveHead _ (accepted p steps) = [] ↔ _
  rw [positiveHead_eq_nil]
  simp only [accepted, List.mem_filter, decide_eq_true_eq, AddsPositive, not_and, and_imp]
  refine forall₂_congr fun s _ => ?_
  cases s.isPositive <;> simp

theorem misuse_ofSteps (p : Program) (name : String) (steps : List RuleStep) :
    ((ofSteps p name steps).misuse = none ↔ WellUsed p name steps) ∧
      ∀ e, (ofSteps p name steps).misuse = some e ↔ FirstMisuse p name steps e := by
  induction steps using List.reverseRecOn with
  | nil =>
    have hnone : (ofSteps p name []).misuse = none := rfl
    rw [hnone]
    simp [WellUsed, FirstMisuse]
  | append_singleton steps s ih =>
    obtain ⟨hnone, hsome⟩ := ih
    have hobjection : ∀ e, (ofSteps p name steps).objection? p s = some e ↔
        Misuses p name steps s e := fun e => by
      have hpositive : (ofSteps p name steps).positive = [] ↔ _ := positive_ofSteps_eq_nil
      rw [objection?_eq_some_iff hpositive, name_ofSteps]
    have hstep : (ofSteps p name (steps ++ [s])).misuse =
        ((ofSteps p name steps).misuse <|> (ofSteps p name steps).objection? p s) := by
      rw [ofSteps, List.foldl_append]
      exact take_misuse p _ s
    rw [hstep, wellUsed_concat]
    simp only [firstMisuse_concat, ← hobjection, ← hnone, ← hsome]
    cases (ofSteps p name steps).misuse with
    | some _ => simp
    | none => simp [Option.eq_none_iff_forall_ne_some]

end Draft

namespace RuleStep

variable {ν : String → VarId} {steps : List RuleStep} {s : RuleStep} {x : String}

def positiveNames (steps : List RuleStep) : List String := (steps.filter isPositive).flatMap names

/-- The arguments of every negative head, and the variables of its guard. -/
def negativeNames : List RuleStep → List (List String × List String)
  | [] => []
  | negated _ args :: rest => (args, (ownEqualities rest).flatMap names) :: negativeNames rest
  | _ :: rest => negativeNames rest

/-- The variables of every guard, with the variables that are bound there. -/
def scopeNames (steps : List RuleStep) : List (List String × List String) :=
  ((guardSteps steps).flatMap names, positiveNames steps) ::
    (negativeNames steps).map fun n => (n.2, positiveNames steps ++ n.1)

/-- The variables that guards ask about, in order, each with the variables that are bound there. -/
def asked (steps : List RuleStep) : List (String × List String) :=
  (scopeNames steps).flatMap fun scope => scope.1.map fun x => (x, scope.2)

def FirstUnbound (steps : List RuleStep) (x : String) : Prop :=
  ∃ before bound after, asked steps = before ++ (x, bound) :: after ∧ x ∉ bound ∧
    ∀ y ∈ before, y.1 ∈ y.2

theorem firstUnbound_iff :
    FirstUnbound steps x ↔
      ((asked steps).find? fun y => decide (y.1 ∉ y.2)).map Prod.fst = some x := by
  simp only [FirstUnbound, Option.map_eq_some_iff, List.find?_eq_some_iff_append]
  constructor
  · rintro ⟨before, bound, after, hsplit, hx, hbefore⟩
    exact ⟨(x, bound), ⟨by simpa using hx, before, after, hsplit, by simpa using hbefore⟩, rfl⟩
  · rintro ⟨⟨_, bound⟩, ⟨hx, before, after, hsplit, hbefore⟩, rfl⟩
    exact ⟨before, bound, after, hsplit, by simpa using hx, by simpa using hbefore⟩

theorem positiveHead_args :
    (positiveHead ν steps).flatMap DraftOccurrence.args = (positiveNames steps).map ν := by
  induction steps with
  | nil => rfl
  | cons s rest ih => cases s <;> simp_all [positiveNames, isPositive, names, List.filter_cons]

theorem mem_ownEqualities (ν : String → VarId) (hs : s ∈ ownEqualities steps) :
    s ∈ steps ∧ (s.conjunct? ν).isSome := by
  induction steps with
  | nil => cases hs
  | cons t rest ih => cases t <;> grind [ownEqualities, conjunct?]

theorem mem_ruleConditions (ν : String → VarId) (hs : s ∈ ruleConditions steps) :
    s ∈ steps ∧ (s.conjunct? ν).isSome := by
  induction steps with
  | nil => cases hs
  | cons t rest ih => cases t <;> grind [ruleConditions, conjunct?]

theorem mem_guardSteps (ν : String → VarId) (hs : s ∈ guardSteps steps) :
    s ∈ steps ∧ (s.conjunct? ν).isSome := by
  induction steps with
  | nil => cases hs
  | cons t rest ih => cases t <;> grind [guardSteps, conjunct?, mem_ruleConditions]

theorem filterMap_conjunct?_vars (hsteps : ∀ s ∈ steps, (s.conjunct? ν).isSome) :
    (steps.filterMap (conjunct? ν)).flatMap GuardConjunct.vars = (steps.flatMap names).map ν := by
  induction steps with
  | nil => rfl
  | cons s rest ih =>
    have hrest := ih fun t ht => hsteps t (List.mem_cons_of_mem s ht)
    have hs := hsteps s List.mem_cons_self
    cases s <;> simp_all [conjunct?, names, GuardConjunct.vars]

theorem negativeHeads_names (ν : String → VarId) (steps : List RuleStep) :
    (negativeHeads ν steps).map
      (fun n => (n.occurrences.flatMap DraftOccurrence.args, n.guard.flatMap GuardConjunct.vars)) =
    (negativeNames steps).map fun n => (n.1.map ν, n.2.map ν) := by
  induction steps with
  | nil => rfl
  | cons s rest ih =>
    have hown :=
      filterMap_conjunct?_vars fun s (hs : s ∈ ownEqualities rest) => (mem_ownEqualities ν hs).2
    cases s <;> simp_all [negativeNames]

theorem positiveNames_subset (steps : List RuleStep) :
    positiveNames steps ⊆ steps.flatMap names := by
  intro x hx
  obtain ⟨s, hs, hx⟩ := List.mem_flatMap.mp hx
  exact List.mem_flatMap.mpr ⟨s, List.mem_of_mem_filter hs, hx⟩

theorem flatMap_names_subset {conditions : List RuleStep} (h : ∀ s ∈ conditions, s ∈ steps) :
    conditions.flatMap names ⊆ steps.flatMap names := by
  intro x hx
  obtain ⟨s, hs, hx⟩ := List.mem_flatMap.mp hx
  exact List.mem_flatMap.mpr ⟨s, h s hs, hx⟩

theorem negativeNames_subset {n : List String × List String} (hn : n ∈ negativeNames steps) :
    n.1 ⊆ steps.flatMap names ∧ n.2 ⊆ steps.flatMap names := by
  induction steps with
  | nil => cases hn
  | cons s rest ih =>
    have hrest : rest.flatMap names ⊆ (s :: rest).flatMap names := List.subset_append_right _ _
    cases s with
    | negated c args =>
      rcases List.mem_cons.mp hn with rfl | hn
      · have hown :=
          flatMap_names_subset fun t (ht : t ∈ ownEqualities rest) =>
            (mem_ownEqualities (fun _ => ⟨0⟩) ht).1
        exact ⟨List.subset_append_left _ _, List.Subset.trans hown hrest⟩
      · exact ⟨List.Subset.trans (ih hn).1 hrest, List.Subset.trans (ih hn).2 hrest⟩
    | _ => exact ⟨List.Subset.trans (ih hn).1 hrest, List.Subset.trans (ih hn).2 hrest⟩

theorem asked_subset {y : String × List String} (hy : y ∈ asked steps) :
    y.1 ∈ steps.flatMap names ∧ y.2 ⊆ steps.flatMap names := by
  have hpositive := positiveNames_subset steps
  have hguard : (guardSteps steps).flatMap names ⊆ steps.flatMap names :=
    flatMap_names_subset fun s hs => (mem_guardSteps (fun _ => ⟨0⟩) hs).1
  simp only [asked, scopeNames, List.flatMap_cons, List.mem_append, List.mem_map, List.mem_flatMap]
    at hy
  rcases hy with ⟨x, hx, rfl⟩ | ⟨_, ⟨n, hn, rfl⟩, x, hx, rfl⟩
  · exact ⟨hguard (List.mem_flatMap.mpr hx), hpositive⟩
  · obtain ⟨hargs, hown⟩ := negativeNames_subset hn
    exact ⟨hown hx, List.append_subset.mpr ⟨hpositive, hargs⟩⟩

end RuleStep

namespace Draft

variable {p : Program} {name : String} {ν : String → VarId} {steps : List RuleStep} {e : ModelError}

/-- The variables that guards ask about, in order, each with the variables that are bound there. -/
def asked (d : Draft) : List (VarId × List VarId) :=
  d.scopes.flatMap fun scope => (scope.1.flatMap GuardConjunct.vars).map fun v => (v, scope.2)

theorem unbound?_eq (d : Draft) :
    d.unbound? = (d.asked.find? fun y => decide (y.1 ∉ y.2)).map Prod.fst := by
  simp only [unbound?, asked, List.find?_flatMap, List.map_findSome?, List.find?_map,
    Function.comp_def, Option.map_map, Option.map_id']

theorem asked_written (name : String) (ν : String → VarId) (steps : List RuleStep) :
    (written name ν steps).asked = (RuleStep.asked steps).map fun y => (ν y.1, y.2.map ν) := by
  have hguard :=
    filterMap_conjunct?_vars fun s (hs : s ∈ guardSteps steps) => (mem_guardSteps ν hs).2
  have hnegatives : (negativeHeads ν steps).map (fun n => (n.guard.flatMap GuardConjunct.vars,
        (positiveNames steps).map ν ++ n.occurrences.flatMap DraftOccurrence.args)) =
      (negativeNames steps).map fun n => (n.2.map ν, (positiveNames steps ++ n.1).map ν) := by
    have hmapped := congrArg (List.map fun n => (n.2, (positiveNames steps).map ν ++ n.1))
      (negativeHeads_names ν steps)
    simpa only [List.map_map, Function.comp_def, List.map_append] using hmapped
  have hscopes : (written name ν steps).scopes.map
      (fun scope => (scope.1.flatMap GuardConjunct.vars, scope.2)) =
      (scopeNames steps).map fun scope => (scope.1.map ν, scope.2.map ν) := by
    simpa [scopes, written, positiveVars, scopeNames, hguard, positiveHead_args, Function.comp_def]
      using hnegatives
  have hasked := congrArg (List.flatMap fun scope => scope.1.map fun v => (v, scope.2)) hscopes
  simpa [asked, RuleStep.asked, List.flatMap_map, List.map_flatMap, Function.comp_def] using hasked

theorem unbound?_written
    (hν : ∀ x ∈ steps.flatMap names, ∀ y ∈ steps.flatMap names, ν x = ν y → x = y) :
    (written name ν steps).unbound? =
      (((RuleStep.asked steps).find? fun y => decide (y.1 ∉ y.2)).map Prod.fst).map ν := by
  have hbound : ∀ y ∈ RuleStep.asked steps, decide (ν y.1 ∉ y.2.map ν) = decide (y.1 ∉ y.2) := by
    intro y hy
    obtain ⟨hx, hbound⟩ := asked_subset hy
    refine decide_eq_decide.mpr (not_congr ⟨fun hmem => ?_, List.mem_map_of_mem⟩)
    obtain ⟨z, hz, heq⟩ := List.mem_map.mp hmem
    exact hν z (hbound hz) y.1 hx heq ▸ hz
  rw [unbound?_eq, asked_written, List.find?_map]
  simp only [Function.comp_def, List.find?_congr hbound, Option.map_map]

end Draft

namespace RuleStep

/-- Why a rule is refused: the first misuse, else the want of a positive head, else the first
variable of a guard that is not bound. -/
inductive Refused (p : Program) (rule : String) (steps : List RuleStep) : ModelError → Prop
  | misuse {e : ModelError} : FirstMisuse p rule steps e → Refused p rule steps e
  | emptyHead : WellUsed p rule steps → (∀ s ∈ steps, s.isPositive = false) →
    Refused p rule steps (.emptyHead rule)
  | unbound {x : String} : WellUsed p rule steps → (∃ s ∈ steps, s.isPositive = true) →
    FirstUnbound steps x →
    Refused p rule steps (.unboundGuardVariable rule x)

theorem WellUsed.not_firstMisuse {p : Program} {rule : String} {steps : List RuleStep}
    {e : ModelError} (h : WellUsed p rule steps) : ¬FirstMisuse p rule steps e :=
  fun ⟨before, s, after, hsplit, _, hs⟩ => h before s after e hsplit hs

end RuleStep

namespace Draft

variable {p : Program} {name : String} {steps : List RuleStep} {e : ModelError}

theorem unbound?_ofSteps (h : WellUsed p name steps) :
    ((ofSteps p name steps).unbound? = none ∧ ∀ x, ¬FirstUnbound steps x) ∨
      ∃ v x, (ofSteps p name steps).unbound? = some v ∧
        (ofSteps p name steps).vars.resolve? ⟨v.index⟩ = some x ∧
        ∀ y, FirstUnbound steps y ↔ y = x := by
  have hvars := ofSteps_holds p name steps
  rw [h.mentions_eq] at hvars
  have hunbound : (ofSteps p name steps).unbound? =
      (written name (numbering (steps.flatMap names)) steps).unbound? := by
    rw [ofSteps_eq p name steps, h.mentions_eq, h.accepted_eq]
    rfl
  rw [hunbound, unbound?_written fun x hx y hy => (hvars.numbering_inj hx hy).mp]
  simp only [firstUnbound_iff]
  cases hfound : (RuleStep.asked steps).find? fun y => decide (y.1 ∉ y.2) with
  | none => exact Or.inl ⟨rfl, by simp⟩
  | some y =>
    have hname := (asked_subset (List.mem_of_find?_eq_some hfound)).1
    exact Or.inr ⟨_, y.1, rfl, hvars.resolve?_eq hname, fun x => by simp [eq_comm]⟩

theorem fault?_ofSteps : (ofSteps p name steps).fault? = some e ↔ Refused p name steps e := by
  obtain ⟨hnone, hsome⟩ := misuse_ofSteps p name steps
  unfold fault?
  cases hm : (ofSteps p name steps).misuse with
  | some e' =>
    have hfirst := (hsome e').mp hm
    have hused : ¬WellUsed p name steps := fun h => h.not_firstMisuse hfirst
    refine ⟨fun he => .misuse (Option.some.inj he ▸ hfirst), ?_⟩
    rintro (hfirst' | ⟨h, _⟩ | ⟨h, _⟩)
    · exact hm.symm.trans ((hsome e).mpr hfirst')
    · exact absurd h hused
    · exact absurd h hused
  | none =>
    have hused := hnone.mp hm
    have hpositive : (ofSteps p name steps).positive = [] ↔ ∀ s ∈ steps, s.isPositive = false := by
      rw [positive_ofSteps_eq_nil]
      refine forall₂_congr fun s hs => ?_
      simp [AddsPositive, hused.fits hs]
    by_cases hnil : (ofSteps p name steps).positive = []
    · have hall := hpositive.mp hnil
      simp only [hnil, List.isEmpty_nil, if_true, name_ofSteps, Option.some.injEq]
      constructor
      · rintro rfl
        exact .emptyHead hused hall
      · rintro (hfirst | _ | ⟨_, ⟨s, hs, hpos⟩, _⟩)
        · exact absurd hfirst hused.not_firstMisuse
        · rfl
        · rw [hall s hs] at hpos
          cases hpos
    · have hsome : ∃ s ∈ steps, s.isPositive = true := by simpa [hpositive] using hnil
      have hunbound : ((ofSteps p name steps).unbound?.map fun v =>
            ModelError.unboundGuardVariable (ofSteps p name steps).name
              ((ofSteps p name steps).varName v)) = some e ↔
          ∃ x, FirstUnbound steps x ∧ .unboundGuardVariable name x = e := by
        rcases unbound?_ofSteps hused with ⟨hv, hno⟩ | ⟨v, x, hv, hx, hfirst⟩
        · simp [hv, hno]
        · simp [hv, hfirst, varName, hx, name_ofSteps]
      simp only [List.isEmpty_iff, hnil, if_false, hunbound]
      constructor
      · rintro ⟨x, hx, rfl⟩
        exact .unbound hused hsome hx
      · rintro (hfirst | ⟨_, hall⟩ | ⟨_, _, hx⟩)
        · exact absurd hfirst hused.not_firstMisuse
        · exact absurd (hpositive.mpr hall) hnil
        · exact ⟨_, hx, rfl⟩

end Draft

namespace Program

/-- The program has gained the rule of a draft and its occurrences, those of the positive head
first; all else is as before. -/
structure GainsRule (p q : Program) (d : Draft) (rule : Rule) (pos : List Occurrence)
    (negs : List (List Occurrence)) :
    Prop where
  appended : p.Appended { q with rules := p.rules } rule.id (pos ++ negs.flatten)
  rules_eq : q.rules = p.rules ++ [rule]
  id_eq : rule.id = ⟨p.rules.length⟩
  name_eq : rule.name = d.name
  kind_eq : rule.kind = .ofRemoved (pos.map Occurrence.removed)
  head_eq : rule.head = pos.map Occurrence.id
  negatives_eq : rule.negatives.map NegativeHead.occurrences = negs.map (List.map Occurrence.id)
  guards_eq : rule.negatives.map NegativeHead.guard = d.negatives.map DraftNegative.guard
  guard_eq : rule.guard = d.guard
  body_eq : rule.body = d.body
  bare_eq : rule.bare = rule
  positive_eq : pos.map Occurrence.draft = d.positive
  negative_eq : negs.map (List.map Occurrence.draft) = d.negatives.map DraftNegative.occurrences
  positive_placed : ∀ (i : Nat) (o : Occurrence), pos[i]? = some o →
    o.head = .positive ∧ o.index = i
  negative_placed : ∀ (k : Nat) (os : List Occurrence), negs[k]? = some os →
    ∀ (i : Nat) (o : Occurrence), os[i]? = some o → o.head = .negative k ∧ o.index = i

theorem appendRule_gains (p : Program) (d : Draft) :
    ∃ pos negs, p.GainsRule (p.appendRule d).2 d (p.draftRule d) pos negs := by
  obtain ⟨q, pos, negs, hq, heq, hhead, hnegatives, hpos, hnegs, hds, hdss⟩ := p.appendRule_spec d
  have hremoved : pos.map Occurrence.removed = d.positive.map DraftOccurrence.removed := by
    rw [← hds, List.map_map]
    rfl
  have hsame : ({ q with rules := p.rules } : Program) = q := by rw [← hq.rules_eq]
  rw [heq]
  exact ⟨pos, negs,
    { appended := hsame ▸ hq
      rules_eq := rfl
      id_eq := rfl
      name_eq := rfl
      kind_eq := congrArg RuleKind.ofRemoved hremoved.symm
      head_eq := hhead
      negatives_eq := hnegatives
      guards_eq := appendNegatives_guard ..
      guard_eq := rfl
      body_eq := rfl
      bare_eq := rfl
      positive_eq := hds
      negative_eq := hdss
      positive_placed := hpos
      negative_placed := hnegs }⟩

variable {p : Program} {name : String} {steps : List RuleStep} {e : ModelError}

theorem perform_rule_of_fault (he : (Draft.ofSteps p name steps).fault? = some e) :
    p.perform (.rule name steps) = (.error e, p) := by
  simp only [perform, addRule, he]

theorem perform_rule_of_no_fault (he : (Draft.ofSteps p name steps).fault? = none) :
    p.perform (.rule name steps) =
      (.ok (.rule ⟨p.rules.length⟩), (p.appendRule (Draft.ofSteps p name steps)).2) := by
  simp only [perform, addRule, he]
  rfl

theorem appendRule_ofSteps_gains (he : (Draft.ofSteps p name steps).fault? = none) :
    ∃ rule pos negs,
    p.GainsRule (p.appendRule (Draft.ofSteps p name steps)).2
      (Draft.written name (numbering (steps.flatMap names)) steps) rule pos negs := by
  have hused := (Draft.misuse_ofSteps p name steps).1.mp (Draft.fault?_eq_none.mp he).1
  have hdraft := Draft.ofSteps_eq p name steps
  rw [hused.mentions_eq, hused.accepted_eq] at hdraft
  rw [hdraft]
  exact ⟨_, p.appendRule_gains (Draft.written name (numbering (steps.flatMap names)) steps)⟩

/-- A rule is refused for the first reason that there is, and then changes nothing; without one,
the program gains it as it is written. -/
theorem perform_rule_exact (p : Program) (name : String) (steps : List RuleStep) :
    (∀ e, (p.perform (.rule name steps)).1 = .error e ↔ Refused p name steps e) ∧
      (∀ e, Refused p name steps e → (p.perform (.rule name steps)).2 = p) ∧
      ((∀ e, ¬Refused p name steps e) → ∃ q rule pos negs,
        p.perform (.rule name steps) = (.ok (.rule ⟨p.rules.length⟩), q) ∧
          p.GainsRule q (Draft.written name (numbering (steps.flatMap names)) steps) rule
            pos negs) := by
  simp only [← Draft.fault?_ofSteps]
  cases he : (Draft.ofSteps p name steps).fault? with
  | some e => simp [perform_rule_of_fault he]
  | none =>
    obtain ⟨rule, pos, negs, hgains⟩ := appendRule_ofSteps_gains he
    rw [perform_rule_of_no_fault he]
    exact ⟨by simp, by simp, fun _ => ⟨_, rule, pos, negs, rfl, hgains⟩⟩

end Program

end ConstraintRules
