import ConstraintRules.Proofs.ActivationClosure
import ConstraintRules.Proofs.Building
import ConstraintRules.Pass.LateStorage

/-! Growth. What the closures of a program contain, those of a program grown from
it contain too. -/

namespace ConstraintRules

open Activation

namespace Program

/-- Annotations aside, what `p` has, `q` has at the same place. -/
def Grows (p q : Program) : Prop := p.bare.Extends q.bare

theorem Grows.of_bare_eq {p q : Program} (h : q.bare = p.bare) : p.Grows q := by
  rw [Grows, h]
  exact .refl _

theorem Extends.grows {p q : Program} (h : p.Extends q) : p.Grows q where
  constraint? c k hk := by
    rw [constraint?_bare] at hk
    obtain ⟨k', hk', rfl⟩ := Option.map_eq_some_iff.mp hk
    obtain ⟨os, hos⟩ := h.constraint? c k' hk'
    exact ⟨os, by rw [constraint?_bare, hos]; rfl⟩
  rules := h.rules.map _
  occurrences := h.occurrences.map _

namespace Grows

variable {p q : Program}

theorem constraint? (h : p.Grows q) {c : ConstraintId} {k : Constraint}
    (hk : p.constraint? c = some k) :
    ∃ occurrences isRecursive removees categories, q.constraint? c =
      some { k with occurrences, isRecursive, removees, categories } := by
  obtain ⟨os, hos⟩ := Extends.constraint? h c k.bare (by rw [constraint?_bare, hk, Option.map_some])
  rw [constraint?_bare] at hos
  obtain ⟨k', hk', he⟩ := Option.map_eq_some_iff.mp hos
  refine ⟨k'.occurrences, k'.isRecursive, k'.removees, k'.categories, ?_⟩
  cases k
  cases k'
  cases he
  exact hk'

theorem rule? (h : p.Grows q) {r : RuleId} {rule : Rule} (hr : p.rule? r = some rule) :
    ∃ needs hints, q.rule? r = some { rule with needsHistory := needs, hints := hints } := by
  have hbare :=
    Extends.rule? h (show p.bare.rule? r = some rule.bare by rw [rule?_bare, hr, Option.map_some])
  rw [rule?_bare] at hbare
  obtain ⟨rule', hr', he⟩ := Option.map_eq_some_iff.mp hbare
  refine ⟨rule'.needsHistory, rule'.hints, ?_⟩
  cases rule
  cases rule'
  cases he
  exact hr'

theorem occurrence? (h : p.Grows q) {o : OccurrenceId} {u : Occurrence}
    (hu : p.occurrence? o = some u) :
    ∃ stored check lookups, q.occurrence? o =
      some { u with stored := stored, checkHistory := check, lookups := lookups } := by
  have hbare := Extends.occurrence? h
    (show p.bare.occurrence? o = some u.bare by rw [occurrence?_bare, hu, Option.map_some])
  rw [occurrence?_bare] at hbare
  obtain ⟨u', hu', he⟩ := Option.map_eq_some_iff.mp hbare
  refine ⟨u'.stored, u'.checkHistory, u'.lookups, ?_⟩
  cases u
  cases u'
  cases he
  exact hu'

theorem mem_occurrences (h : p.Grows q) {u : Occurrence} (hu : u ∈ p.occurrences) :
    ∃ stored check lookups,
      { u with stored := stored, checkHistory := check, lookups := lookups } ∈ q.occurrences := by
  obtain ⟨o, ho⟩ := mem_occurrences_iff.mp hu
  obtain ⟨stored, check, lookups, hq⟩ := h.occurrence? ho
  exact ⟨stored, check, lookups, mem_occurrences_iff.mpr ⟨o, hq⟩⟩

theorem mem_active (h : p.Grows q) {u : Occurrence} (hu : u ∈ p.active) :
    ∃ stored check lookups,
      { u with stored := stored, checkHistory := check, lookups := lookups } ∈ q.active := by
  have hu := Program.mem_active.mp hu
  obtain ⟨stored, check, lookups, hq⟩ := h.mem_occurrences hu.1
  exact ⟨stored, check, lookups, Program.mem_active.mpr ⟨hq, hu.2⟩⟩

theorem mayBeStored_eq (h : p.Grows q) {c : ConstraintId} {k : Constraint}
    (hk : p.constraint? c = some k) :
    q.mayBeStored c = p.mayBeStored c := by
  obtain ⟨os, recursive, removees, categories, hq⟩ := h.constraint? hk
  simp [Program.mayBeStored, hk, hq]

section Closure

variable (h : p.Grows q) {r : RuleId} {c x : ConstraintId}

include h

theorem runs {g : Goal} (hg : p.Runs r g) : q.Runs r g := by
  obtain ⟨rule, hr, hg⟩ := hg
  obtain ⟨needs, hints, hq⟩ := h.rule? hr
  exact ⟨_, hq, hg⟩

theorem reactive (hc : p.Reactive c) : q.Reactive c := by
  obtain ⟨k, hk, hm⟩ := hc
  obtain ⟨os, recursive, removees, categories, hq⟩ := h.constraint? hk
  exact ⟨_, hq, hm⟩

theorem exported (hc : p.Exported c) : q.Exported c := by
  obtain ⟨k, hk, hm⟩ := hc
  obtain ⟨os, recursive, removees, categories, hq⟩ := h.constraint? hk
  exact ⟨_, hq, hm⟩

theorem fires (hx : p.Fires x r) : q.Fires x r := by
  obtain ⟨o, ho, hc, hr⟩ := hx
  obtain ⟨stored, check, lookups, hq⟩ := h.mem_active ho
  exact ⟨_, hq, hc, hr⟩

theorem triggers (ht : p.Triggers r) : q.Triggers r := ht.imp h.runs h.runs

theorem bodyActivates (hc : p.BodyActivates r c) : q.BodyActivates r c := by
  rcases hc with ⟨args, hcall⟩ | ⟨ht, hreact⟩ | ⟨hf, hexp⟩
  · exact Or.inl ⟨args, h.runs hcall⟩
  · exact Or.inr (Or.inl ⟨h.triggers ht, h.reactive hreact⟩)
  · exact Or.inr (Or.inr ⟨h.runs hf, h.exported hexp⟩)

theorem activates (hc : p.Activates r c) : q.Activates r c := by
  induction hc with
  | body hb => exact .body (h.bodyActivates hb)
  | step _ hs hb ih => exact .step ih (h.fires hs) (h.bodyActivates hb)

theorem leadsTo {s : RuleId} (hs : p.LeadsTo r s) : q.LeadsTo r s := by
  rcases hs with rfl | ⟨x, hx, hfires⟩
  · exact Or.inl rfl
  · exact Or.inr ⟨x, h.activates hx, h.fires hfires⟩

theorem reachesTrigger (ht : p.ReachesTrigger r) : q.ReachesTrigger r := by
  obtain ⟨s, hs, ht⟩ := ht
  exact ⟨s, h.leadsTo hs, h.triggers ht⟩

theorem reachesForeign (hf : p.ReachesForeign r) : q.ReachesForeign r := by
  obtain ⟨s, hs, hf⟩ := hf
  exact ⟨s, h.leadsTo hs, h.runs hf⟩

theorem looksUp (hx : p.LooksUp x c) : q.LooksUp x c := by
  obtain ⟨o, ho, hox, u, hu, hrule, hne, huc⟩ := hx
  obtain ⟨stored, check, lookups, ho'⟩ := h.mem_active ho
  obtain ⟨stored', check', lookups', hu'⟩ := h.mem_occurrences hu
  exact ⟨_, ho', hox, _, hu', hrule, hne, huc⟩

theorem bodyObserves (hc : p.BodyObserves r c) : q.BodyObserves r c := by
  rcases hc with hact | ⟨x, hx, hl⟩ | ⟨ht, hreact⟩ | ⟨hf, hseen⟩
  · exact Or.inl (h.activates hact)
  · exact Or.inr (Or.inl ⟨x, h.activates hx, h.looksUp hl⟩)
  · exact Or.inr (Or.inr (Or.inl ⟨h.reachesTrigger ht, h.reactive hreact⟩))
  · exact Or.inr (Or.inr (Or.inr ⟨h.reachesForeign hf, hseen.imp h.exported h.reactive⟩))

theorem consumes (hx : p.Consumes x c) : q.Consumes x c := by
  obtain ⟨o, ho, hox, u, hu, hrule, hpos, hrem, huc⟩ := hx
  obtain ⟨stored, check, lookups, ho'⟩ := h.mem_active ho
  obtain ⟨stored', check', lookups', hu'⟩ := h.mem_occurrences hu
  exact ⟨_, ho', hox, _, hu', hrule, hpos, hrem, huc⟩

theorem needsStack (hx : p.NeedsStack x) : q.NeedsStack x := by
  obtain ⟨o, ho, hox, b, hb, hstack⟩ := hx
  obtain ⟨stored, check, lookups, ho'⟩ := h.mem_active ho
  exact ⟨_, ho', hox, b, h.runs hb, hstack⟩

end Closure

end Grows

end Program

end ConstraintRules
