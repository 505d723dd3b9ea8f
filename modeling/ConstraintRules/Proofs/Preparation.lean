import ConstraintRules.Proofs.Indexing
import ConstraintRules.Proofs.JoinComponents
import ConstraintRules.Proofs.StorageExact
import ConstraintRules.Pipeline

/-! What comes before propagation history. Each of these passes is done and leaves
the marks of history alone. -/

namespace ConstraintRules

open Activation

def Rule.unhinted (r : Rule) : Rule := { r with hints := none }

namespace Program

variable {p q : Program}

/-- Well formed, with nothing frozen, lookups that resolve and no history mark cleared. -/
structure Ready (p : Program) : Prop where
  wellFormed : p.WellFormed
  unfrozen : p.Unfrozen
  indexed : p.Indexed
  checked : ∀ o ∈ p.occurrences, o.checkHistory = true
  kept : ∀ r ∈ p.rules, r.needsHistory = true

theorem build_ready (steps : List BuildStep) : (build steps).Ready := by
  have h := build_unannotated steps
  refine ⟨build_wellFormed steps, fun k hk c hc => ?_, fun o ho l hl => ?_, fun o ho => ?_,
    fun r hr => ?_⟩
  · rw [← h.constraints k hk] at hc
    cases hc
  · rw [← h.occurrences o ho] at hl
    cases hl
  · rw [← h.occurrences o ho]
    rfl
  · rw [← h.rules r hr]
    rfl

theorem Ready.of_agree (h : p.Ready) (hb : q.bare = p.bare)
    (hc : q.constraints.map Constraint.categories = p.constraints.map Constraint.categories)
    (hl : q.occurrences.map Occurrence.lookups = p.occurrences.map Occurrence.lookups)
    (ho : q.occurrences.map Occurrence.checkHistory = p.occurrences.map Occurrence.checkHistory)
    (hr : q.rules.map Rule.needsHistory = p.rules.map Rule.needsHistory) : q.Ready where
  wellFormed := h.wellFormed.of_bare_eq hb
  unfrozen k hk := by
    have hmem := List.mem_map_of_mem (f := Constraint.categories) hk
    rw [hc] at hmem
    obtain ⟨k', hk', he⟩ := List.mem_map.mp hmem
    rw [← he]
    exact h.unfrozen k' hk'
  indexed o ho l hlo := by
    have hmem := List.mem_map_of_mem (f := Occurrence.lookups) ho
    rw [hl] at hmem
    obtain ⟨o', ho', he⟩ := List.mem_map.mp hmem
    rw [← he] at hlo
    obtain ⟨u, k, hu, hk, hpath⟩ := h.indexed o' ho' l hlo
    obtain ⟨u', _, _, _, hu', rfl⟩ := occurrence?_of_bare_eq hb.symm hu
    obtain ⟨k', hk', hcs⟩ := getElem?_of_map_eq hc.symm hk
    exact ⟨u', k', hu', hk', hcs ▸ hpath⟩
  checked o ho' := by
    have hmem := List.mem_map_of_mem (f := Occurrence.checkHistory) ho'
    rw [ho] at hmem
    obtain ⟨u, hu, he⟩ := List.mem_map.mp hmem
    rw [← he]
    exact h.checked u hu
  kept r hr' := by
    have hmem := List.mem_map_of_mem (f := Rule.needsHistory) hr'
    rw [hr] at hmem
    obtain ⟨u, hu, he⟩ := List.mem_map.mp hmem
    rw [← he]
    exact h.kept u hu

theorem planJoins_eq (h : p.Arranged) :
    ∃ rules : List Rule, rules.map Rule.unhinted = p.rules.map Rule.unhinted ∧
    ∃ stats, p.planJoins = .done stats { p with rules } := by
  have hone : ∀ r ∈ p.rules, ∃ hints, p.withHints? r = some { r with hints } := fun r hr => by
    obtain ⟨g, hg⟩ : ∃ g, p.joinGraph? r = some g := by
      obtain ⟨_, _, hg, _⟩ := h.joinGraph?_eq hr
      exact ⟨_, hg⟩
    by_cases hj : r.hasJoin = true
    · exact ⟨some g.hints, by simp [withHints?, hj, hg]⟩
    · exact ⟨r.hints, by simp [withHints?, hj]⟩
  obtain ⟨rules, hrules, hmap, _⟩ :=
    exists_mapM_eq_some fun r hr => (hone r hr).imp' _ fun _ hh => hh
  refine ⟨rules, ?_, _, by rw [planJoins, hrules]⟩
  have hsome : (rules.map Rule.unhinted).map some = (p.rules.map Rule.unhinted).map some := by
    calc (rules.map Rule.unhinted).map some
        = (rules.map some).map (Option.map Rule.unhinted) := by simp
      _ = (p.rules.map p.withHints?).map (Option.map Rule.unhinted) := by rw [hmap]
      _ = (p.rules.map Rule.unhinted).map some := by
        rw [List.map_map, List.map_map]
        apply List.map_congr_left
        intro r hr
        obtain ⟨hints, hh⟩ := hone r hr
        simp [hh, Rule.unhinted]
  exact List.map_injective_iff.mpr (fun _ _ => Option.some.inj) hsome

theorem rememberAll_ofFacts_reflects (facts : List Fact) (xs : List Node) :
    ((Session.ofFacts facts).rememberAll xs).facts.Reflects { told := facts } := by
  rw [Session.rememberAll_facts]
  exact Session.ofFacts_reflects facts

theorem noteCalls_eq {α : Type} (h : p.WellFormed) {further : Option (List Fact)}
    {facts : List Fact} (hfacts : further = some facts) (note : Session → Constraint → Constraint)
    (stats : Session → α) :
    ∃ s : Session, s.facts.Reflects { told := p.callFacts ++ facts } ∧
      p.noteCalls further note stats =
        .done (stats s) { p with constraints := p.constraints.map (note s) } := by
  refine ⟨_, rememberAll_ofFacts_reflects _ (p.constraints.map fun c => .constraint c.id), ?_⟩
  rw [noteCalls, hfacts, callSession?_eq h]
  rfl

section Ready

variable (h : p.Ready)

include h

theorem assignLookups_ready (arrayIndexing : Bool) :
    ∃ stats q, p.assignLookups arrayIndexing = .done stats q ∧ q.Ready ∧ p.Reindexed q := by
  obtain ⟨stats, q, hdone, hre, hu, hi⟩ :=
    assignLookups_spec h.wellFormed h.unfrozen h.indexed arrayIndexing
  refine ⟨stats, q, hdone,
    ⟨h.wellFormed.of_bare_eq hre.bare_eq, hu, hi, fun o ho => ?_, fun r hr => ?_⟩, hre⟩
  · obtain ⟨i, hi⟩ := List.mem_iff_getElem?.mp ho
    obtain ⟨u, hu, he⟩ := getElem?_of_map_eq hre.occurrences_eq hi
    have hcheck := congrArg Occurrence.checkHistory he
    exact hcheck.symm.trans (h.checked u (List.mem_of_getElem? hu))
  · rw [hre.rules_eq] at hr
    exact h.kept r hr

theorem planJoins_ready : ∃ stats q, p.planJoins = .done stats q ∧ q.Ready ∧ q.bare = p.bare := by
  obtain ⟨rules, hrules, stats, hdone⟩ := planJoins_eq h.wellFormed.toArranged
  have hbare : rules.map Rule.bare = p.rules.map Rule.bare := by
    have := congrArg (List.map Rule.bare) hrules
    rw [List.map_map, List.map_map] at this
    exact this
  have hneeds : rules.map Rule.needsHistory = p.rules.map Rule.needsHistory := by
    have := congrArg (List.map Rule.needsHistory) hrules
    rw [List.map_map, List.map_map] at this
    exact this
  have hb : ({ p with rules } : Program).bare = p.bare := by simp only [bare, hbare]
  exact ⟨stats, _, hdone, h.of_agree hb rfl rfl rfl hneeds, hb⟩

theorem delayStorage_ready :
    ∃ stats q, p.delayStorage = .done stats q ∧ q.Ready ∧ q.bare = p.bare := by
  obtain ⟨s, hs, stats, hdone⟩ := delayStorage_eq h.wellFormed
  have hdelay : ∀ {β : Type} (f : Occurrence → β), (∀ o stored, f { o with stored } = f o) →
      (p.occurrences.map (p.delay s)).map f = p.occurrences.map f := by
    intro β f hf
    rw [List.map_map]
    apply List.map_congr_left
    intro o _
    obtain ⟨stored, heq, _⟩ := hs.delay_eq o
    rw [Function.comp_apply, heq, hf]
  have hb : ({ p with occurrences := p.occurrences.map (p.delay s) } : Program).bare = p.bare := by
    simp only [bare, hdelay Occurrence.bare fun _ _ => rfl]
  exact ⟨stats, _, hdone,
    h.of_agree hb rfl (hdelay _ fun _ _ => rfl) (hdelay _ fun _ _ => rfl) rfl, hb⟩

theorem noteCalls_ready {α : Type} {further : Option (List Fact)} {facts : List Fact}
    (hfacts : further = some facts) {note : Session → Constraint → Constraint} {stats : Session → α}
    (hbare : ∀ s c, (note s c).bare = c.bare)
    (hcategories : ∀ s c, (note s c).categories = c.categories) :
    ∃ a q, p.noteCalls further note stats = .done a q ∧ q.Ready ∧ q.bare = p.bare := by
  obtain ⟨s, _, hdone⟩ := noteCalls_eq h.wellFormed hfacts note stats
  have hb : ({ p with constraints := p.constraints.map (note s) } : Program).bare = p.bare := by
    simp only [bare, List.map_map, Function.comp_def, hbare]
  refine ⟨_, _, hdone, h.of_agree hb ?_ rfl rfl rfl, hb⟩
  simp only [List.map_map, Function.comp_def, hcategories]

theorem findRemovees_ready :
    ∃ stats q, p.findRemovees = .done stats q ∧ q.Ready ∧ q.bare = p.bare := by
  obtain ⟨facts, hfacts, _⟩ := removalFacts?_eq_some h.wellFormed.toArranged
  exact noteCalls_ready h hfacts (fun _ _ => rfl) fun _ _ => rfl

theorem clearRecursion_ready :
    ∃ stats q, p.clearRecursion = .done stats q ∧ q.Ready ∧ q.bare = p.bare := by
  obtain ⟨facts, hfacts, _⟩ := stackFacts?_eq_some h.wellFormed.toArranged
  exact noteCalls_ready h hfacts (fun _ _ => rfl) fun _ _ => rfl

end Ready

end Program

/-- A pass that may come before history. -/
inductive Preparation where
  | lookups (arrayIndexing : Bool)
  | joins
  | storage
  | removees
  | recursion

namespace Preparation

def run (p : Program) : Preparation → Outcome Unit
  | lookups arrayIndexing => (p.assignLookups arrayIndexing).andThen fun _ q => .done () q
  | joins => p.planJoins.andThen fun _ q => .done () q
  | storage => p.delayStorage.andThen fun _ q => .done () q
  | removees => p.findRemovees.andThen fun _ q => .done () q
  | recursion => p.clearRecursion.andThen fun _ q => .done () q

theorem run_ready {p : Program} (h : p.Ready) (x : Preparation) :
    ∃ q, x.run p = .done () q ∧ q.Ready ∧ q.bare = p.bare := by
  cases x with
  | lookups arrayIndexing =>
    obtain ⟨_, q, hdone, hq, hre⟩ := Program.assignLookups_ready h arrayIndexing
    exact ⟨q, by simp only [run, hdone, Outcome.andThen], hq, hre.bare_eq⟩
  | joins =>
    obtain ⟨_, q, hdone, hq⟩ := Program.planJoins_ready h
    exact ⟨q, by simp only [run, hdone, Outcome.andThen], hq⟩
  | storage =>
    obtain ⟨_, q, hdone, hq⟩ := Program.delayStorage_ready h
    exact ⟨q, by simp only [run, hdone, Outcome.andThen], hq⟩
  | removees =>
    obtain ⟨_, q, hdone, hq⟩ := Program.findRemovees_ready h
    exact ⟨q, by simp only [run, hdone, Outcome.andThen], hq⟩
  | recursion =>
    obtain ⟨_, q, hdone, hq⟩ := Program.clearRecursion_ready h
    exact ⟨q, by simp only [run, hdone, Outcome.andThen], hq⟩

end Preparation

namespace Program

def prepare (p : Program) : List Preparation → Outcome Unit
  | [] => .done () p
  | x :: xs => (x.run p).andThen fun _ q => q.prepare xs

theorem prepare_ready {p : Program} (h : p.Ready) (xs : List Preparation) :
    ∃ q, p.prepare xs = .done () q ∧ q.Ready ∧ q.bare = p.bare := by
  induction xs generalizing p with
  | nil => exact ⟨p, rfl, h, rfl⟩
  | cons x xs ih =>
    obtain ⟨q, hrun, hq, hqp⟩ := x.run_ready h
    obtain ⟨s, hrest, hs, hsq⟩ := ih hq
    exact ⟨s, by simp only [prepare, hrun, Outcome.andThen, hrest], hs, hsq.trans hqp⟩

end Program

end ConstraintRules
