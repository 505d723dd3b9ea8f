import ConstraintRules.Proofs.IndexingGrowth
import ConstraintRules.Proofs.HistoryMono

/-! Adding rules never enables an optimisation: the larger program keeps every
mark that the smaller one keeps. -/

namespace ConstraintRules

open Activation

namespace Program

variable {p q : Program}

/-- Whatever is marked in `p` is marked in `q`, and the lookups of `p` are those of `q`. -/
structure RetainedBy (p q : Program) : Prop where
  grows : p.Grows q
  constraint? : ∀ (c : ConstraintId) (k : Constraint), p.constraint? c = some k →
    ∃ k', q.constraint? c = some k' ∧
    (k.isRecursive = true → k'.isRecursive = true) ∧ k.removees ⊆ k'.removees
  rule? : ∀ (id : RuleId) (r : Rule), p.rule? id = some r → ∃ r', q.rule? id = some r' ∧
    (r.needsHistory = true → r'.needsHistory = true)
  occurrence? : ∀ (id : OccurrenceId) (u : Occurrence), p.occurrence? id = some u →
    ∃ v, q.occurrence? id = some v ∧
    (u.stored = true → v.stored = true) ∧ (u.checkHistory = true → v.checkHistory = true) ∧
      v.lookups = u.lookups

/-- Two programs on their way to history, of which the larger retains what the smaller marks. -/
structure Paired (p q : Program) : Prop where
  left : p.Ready
  right : q.Ready
  retained : p.RetainedBy q

theorem Grows.congr {p' q' : Program} (h : p.Grows q) (hp : p'.bare = p.bare)
    (hq : q'.bare = q.bare) :
    p'.Grows q' := by
  rw [Grows, hp, hq]
  exact h

theorem Paired.conserves (h : p.Paired q) : p.Conserves q where
  grows := h.retained.grows
  stored id u v hu hv := by
    obtain ⟨v', hv', hs, _⟩ := h.retained.occurrence? id u hu
    rw [hv] at hv'
    cases hv'
    exact hs
  findsOne id id' u v u' v' hu hv hu' hv' hone := by
    obtain ⟨w, hw, _, _, hlookups⟩ := h.retained.occurrence? id u hu
    rw [hv] at hw
    cases hw
    obtain ⟨_, _, _, hw'⟩ := h.retained.grows.occurrence? hu'
    rw [hv'] at hw'
    cases hw'
    obtain ⟨l, k', path, hl, hk', hpath, hsingle⟩ := hone
    -- the lookup resolves in either program, so its category has the lookup's path in both
    have hpartner : l.partner = u'.id := by simpa using List.find?_some hl
    have hmem : l ∈ v.lookups := List.mem_of_find?_eq_some hl
    have hmem' : u' ∈ p.occurrences := mem_occurrences_iff.mpr ⟨id', hu'⟩
    have hq :=
      (h.right.indexed v (mem_occurrences_iff.mpr ⟨id, hv⟩) l hmem).path_eq h.right.wellFormed
      (mem_occurrences_iff.mpr ⟨id', hv'⟩) hpartner hk'
    rw [hpath] at hq
    obtain ⟨k, hk, _⟩ := h.left.wellFormed.declared u' hmem'
    rw [hlookups] at hmem
    have hp :=
      (h.left.indexed u (mem_occurrences_iff.mpr ⟨id, hu⟩) l hmem).path_eq h.left.wellFormed
        hmem' hpartner hk
    refine ⟨l, k, path, ?_, hk, hp.trans hq.symm, hsingle⟩
    rw [Occurrence.lookup?, ← hlookups]
    exact hl

theorem build_paired (steps further : List BuildStep) :
    (build steps).Paired (build (steps ++ further)) where
  left := build_ready steps
  right := build_ready _
  retained := by
    have h := build_append_extends steps further
    refine ⟨h.grows, fun c k hk => ?_, fun id r hr => ⟨r, h.rule? hr, fun hn => hn⟩,
      fun id u hu => ⟨u, h.occurrence? hu, fun hs => hs, fun hc => hc, rfl⟩⟩
    obtain ⟨os, hos⟩ := h.constraint? c k hk
    exact ⟨_, hos, fun hr => hr, fun d hd => hd⟩

end Program

namespace Outcome

/-- Both are done, and the programs they leave are related. -/
def Both {α β : Type} (R : Program → Program → Prop) (x : Outcome α) (y : Outcome β) : Prop :=
  ∃ a p b q, x = done a p ∧ y = done b q ∧ R p q

variable {α β γ δ : Type} {R S : Program → Program → Prop}

theorem Both.andThen {x : Outcome α} {y : Outcome β} {f : α → Program → Outcome γ}
    {g : β → Program → Outcome δ}
    (h : x.Both R y) (hfg : ∀ a p b q, R p q → (f a p).Both S (g b q)) :
    (x.andThen f).Both S (y.andThen g) := by
  obtain ⟨a, p, b, q, rfl, rfl, hpq⟩ := h
  exact hfg a p b q hpq

theorem Both.optionally {pass : Program → Outcome α} {p q : Program} (hR : R p q)
    (hRS : R p q → S p q) (hpass : R p q → (pass p).Both S (pass q)) (wanted : Bool) :
    (Outcome.optionally wanted pass p).Both S (Outcome.optionally wanted pass q) := by
  cases wanted with
  | false => exact ⟨none, p, none, q, rfl, rfl, hRS hR⟩
  | true => exact (hpass hR).andThen fun a p b q hpq => ⟨some a, p, some b, q, rfl, rfl, hpq⟩

end Outcome

namespace Program

variable {p q : Program}

section Facts

theorem Grows.tells (h : p.Grows q) {fact : Fact} (ht : p.Tells fact) : q.Tells fact := by
  cases ht with
  | reactivated hc => exact .reactivated (h.reactive hc)
  | exported hc => exact .exported (h.exported hc)
  | fires hx => exact .fires (h.fires hx)
  | call hg => exact .call (h.runs hg)
  | triggering hg => exact .triggering (h.runs hg)
  | pessimistic hg => exact .pessimistic (h.runs hg)

theorem Grows.callFacts_subset (h : p.Grows q) (hp : p.WellFormed) (hq : q.WellFormed) :
    p.callFacts ⊆ q.callFacts := by
  intro fact hfact
  rw [mem_callFacts hp] at hfact
  rw [mem_callFacts hq]
  exact h.tells hfact

theorem holds_mono {s s' : Session} {told told' : List Fact} (hs : s.facts.Reflects { told })
    (hs' : s'.facts.Reflects { told := told' }) (hsub : told ⊆ told') {query : Query}
    (hq : s.holds query = true) :
    s'.holds query = true := by
  rw [Session.holds_eq, hs.holds_iff] at hq
  rw [Session.holds_eq, hs'.holds_iff]
  refine Ledger.Holds.mono ?_ ?_ hq
  · exact hsub
  · rfl

theorem append_subset_append {facts facts' more more' : List Fact} (h : facts ⊆ facts')
    (h' : more ⊆ more') :
    facts ++ more ⊆ facts' ++ more' := by
  intro fact hfact
  exact List.mem_append.mpr ((List.mem_append.mp hfact).imp (fun hl => h hl) fun hr => h' hr)

end Facts

namespace Paired

theorem planJoins (h : p.Paired q) : p.planJoins.Both Paired q.planJoins := by
  obtain ⟨stats, p', hp, hpr, hpb⟩ := planJoins_ready h.left
  obtain ⟨stats', q', hq, hqr, hqb⟩ := planJoins_ready h.right
  refine ⟨stats, p', stats', q', hp, hq, hpr, hqr, ?_⟩
  obtain ⟨rules, hrules, _, hdone⟩ := planJoins_eq h.left.wellFormed.toArranged
  obtain ⟨rules', hrules', _, hdone'⟩ := planJoins_eq h.right.wellFormed.toArranged
  rw [hp] at hdone
  rw [hq] at hdone'
  cases hdone
  cases hdone'
  refine ⟨h.retained.grows.congr hpb hqb, h.retained.constraint?, fun id r hr => ?_,
    h.retained.occurrence?⟩
  obtain ⟨r₀, hr₀, he⟩ := getElem?_of_map_eq hrules hr
  obtain ⟨r₁, hr₁, hn⟩ := h.retained.rule? id r₀ hr₀
  obtain ⟨r₂, hr₂, he'⟩ := getElem?_of_map_eq hrules'.symm hr₁
  have hn₀ := congrArg Rule.needsHistory he
  have hn₂ := congrArg Rule.needsHistory he'
  exact ⟨r₂, hr₂, fun hneeds => hn₂.trans (hn (hn₀.trans hneeds))⟩

theorem needsStorage (h : p.Paired q) {id : OccurrenceId} {u v : Occurrence}
    (hu : p.occurrence? id = some u) (hv : q.occurrence? id = some v) (hn : p.NeedsStorage u) :
    q.NeedsStorage v := by
  obtain ⟨hmay, hkept, hsees⟩ := hn
  obtain ⟨k, hk, _⟩ := h.left.wellFormed.declared u (mem_occurrences_iff.mpr ⟨id, hu⟩)
  rw [h.conserves.eq_of_occurrence? hu hv]
  refine ⟨?_, hkept, h.retained.grows.bodyObserves hsees⟩
  exact (h.retained.grows.mayBeStored_eq hk).trans hmay

theorem delayStorage (h : p.Paired q) : p.delayStorage.Both Paired q.delayStorage := by
  obtain ⟨stats, p', hp, hpr, hpb⟩ := delayStorage_ready h.left
  obtain ⟨stats', q', hq, hqr, hqb⟩ := delayStorage_ready h.right
  refine ⟨stats, p', stats', q', hp, hq, hpr, hqr, ?_⟩
  obtain ⟨s, hs, _, hdone⟩ := delayStorage_eq h.left.wellFormed
  obtain ⟨s', hs', _, hdone'⟩ := delayStorage_eq h.right.wellFormed
  rw [hp] at hdone
  rw [hq] at hdone'
  cases hdone
  cases hdone'
  refine ⟨h.retained.grows.congr hpb hqb, h.retained.constraint?, h.retained.rule?,
    fun id u' hu' => ?_⟩
  simp only [Program.occurrence?, List.getElem?_map] at hu'
  obtain ⟨u, hu, rfl⟩ := Option.map_eq_some_iff.mp hu'
  obtain ⟨v, hv, hstored, hcheck, hlookups⟩ := h.retained.occurrence? id u hu
  obtain ⟨stored, hdelay, hiff⟩ := hs.delay_eq u
  obtain ⟨stored', hdelay', hiff'⟩ := hs'.delay_eq v
  have hactive : v.isActive = u.isActive := by
    rw [h.conserves.eq_of_occurrence? hu hv]
    rfl
  refine ⟨q.delay s' v, ?_, ?_⟩
  · simp only [Program.occurrence?] at hv ⊢
    rw [List.getElem?_map, hv, Option.map_some]
  · rw [hdelay, hdelay']
    refine ⟨fun htrue => ?_, hcheck, hlookups⟩
    obtain ⟨hold, hneeds⟩ := hiff.mp htrue
    exact hiff'.mpr ⟨hstored hold, fun ha => h.needsStorage hu hv (hneeds (hactive ▸ ha))⟩

theorem mapConstraints (h : p.Paired q) {f g : Constraint → Constraint}
    (hf : ∀ k, (f k).bare = k.bare)
    (hg : ∀ k, (g k).bare = k.bare)
    (hfg : ∀ k k', k'.id = k.id → (k.isRecursive = true → k'.isRecursive = true) →
      k.removees ⊆ k'.removees →
      ((f k).isRecursive = true → (g k').isRecursive = true) ∧ (f k).removees ⊆ (g k').removees) :
    RetainedBy { p with constraints := p.constraints.map f }
      { q with constraints := q.constraints.map g } where
  grows := by
    refine h.retained.grows.congr ?_ ?_
    · simp only [bare, List.map_map, Function.comp_def, hf]
    · simp only [bare, List.map_map, Function.comp_def, hg]
  constraint? c k₁ hk₁ := by
    simp only [Program.constraint?, List.getElem?_map] at hk₁ ⊢
    obtain ⟨k, hk, rfl⟩ := Option.map_eq_some_iff.mp hk₁
    obtain ⟨k', hk', hrec, hrem⟩ := h.retained.constraint? c k hk
    have hid : k'.id = k.id :=
      (h.right.wellFormed.id_of_constraint? hk').trans (h.left.wellFormed.id_of_constraint? hk).symm
    refine ⟨g k', ?_, hfg k k' hid hrec hrem⟩
    rw [show q.constraints[c.index]? = some k' from hk', Option.map_some]
  rule? := h.retained.rule?
  occurrence? := h.retained.occurrence?

/-- Notes from calls stay related if a session that has been told more notes more. -/
theorem noteCalls {α : Type} (h : p.Paired q) {further further' : Option (List Fact)}
    {facts facts' : List Fact} (hfacts : further = some facts) (hfacts' : further' = some facts')
    (hsub : facts ⊆ facts') {note note' : Session → Constraint → Constraint}
    {stats stats' : Session → α}
    (hbare : ∀ s k, (note s k).bare = k.bare ∧ (note' s k).bare = k.bare)
    (hcategories : ∀ s k, (note s k).categories = k.categories ∧
      (note' s k).categories = k.categories)
    (hnote : ∀ s s' : Session, (∀ query, s.holds query = true → s'.holds query = true) →
      ∀ k k' : Constraint,
      k'.id = k.id → (k.isRecursive = true → k'.isRecursive = true) → k.removees ⊆ k'.removees →
      ((note s k).isRecursive = true → (note' s' k').isRecursive = true) ∧
        (note s k).removees ⊆ (note' s' k').removees) :
    (p.noteCalls further note stats).Both Paired (q.noteCalls further' note' stats') := by
  obtain ⟨a, p', hp, hpr, _⟩ :=
    noteCalls_ready h.left hfacts (fun s k => (hbare s k).1) fun s k => (hcategories s k).1
  obtain ⟨a', q', hq, hqr, _⟩ :=
    noteCalls_ready h.right hfacts' (fun s k => (hbare s k).2) fun s k => (hcategories s k).2
  refine ⟨a, p', a', q', hp, hq, hpr, hqr, ?_⟩
  obtain ⟨s, hs, hdone⟩ := noteCalls_eq h.left.wellFormed hfacts note stats
  obtain ⟨s', hs', hdone'⟩ := noteCalls_eq h.right.wellFormed hfacts' note' stats'
  rw [hp] at hdone
  rw [hq] at hdone'
  cases hdone
  cases hdone'
  have hall := append_subset_append
    (h.retained.grows.callFacts_subset h.left.wellFormed h.right.wellFormed) hsub
  exact h.mapConstraints (fun k => (hbare s k).1) (fun k => (hbare s' k).2)
    (hnote s s' fun _ => holds_mono hs hs' hall)

theorem findRemovees (h : p.Paired q) : p.findRemovees.Both Paired q.findRemovees := by
  obtain ⟨facts, hfacts, hmem⟩ := removalFacts?_eq_some h.left.wellFormed.toArranged
  obtain ⟨facts', hfacts', hmem'⟩ := removalFacts?_eq_some h.right.wellFormed.toArranged
  have hgrows := h.retained.grows
  have hsub : facts ⊆ facts' := by
    intro fact hfact
    obtain ⟨x, c, hx, he⟩ := (hmem fact).mp hfact
    exact (hmem' fact).mpr ⟨x, c, hgrows.consumes hx, he⟩
  refine h.noteCalls hfacts hfacts' hsub (fun _ _ => ⟨rfl, rfl⟩) (fun _ _ => ⟨rfl, rfl⟩) ?_
  intro s s' hholds k k' hid hrec _
  refine ⟨hrec, fun d hd => ?_⟩
  simp only [listRemovees, removeesOf, List.mem_filter, List.mem_map] at hd ⊢
  obtain ⟨⟨e, he, rfl⟩, hremoves⟩ := hd
  obtain ⟨_, _, _, _, he'⟩ := hgrows.constraint? (h.left.wellFormed.constraint?_id he)
  refine ⟨⟨_, List.mem_of_getElem? he', rfl⟩, ?_⟩
  rw [hid]
  exact hholds _ hremoves

theorem clearRecursion (h : p.Paired q) : p.clearRecursion.Both Paired q.clearRecursion := by
  obtain ⟨facts, hfacts, hmem⟩ := stackFacts?_eq_some h.left.wellFormed.toArranged
  obtain ⟨facts', hfacts', hmem'⟩ := stackFacts?_eq_some h.right.wellFormed.toArranged
  have hsub : facts ⊆ facts' := by
    intro fact hfact
    obtain ⟨x, hx, he⟩ := (hmem fact).mp hfact
    exact (hmem' fact).mpr ⟨x, h.retained.grows.needsStack hx, he⟩
  refine h.noteCalls hfacts hfacts' hsub (fun _ _ => ⟨rfl, rfl⟩) (fun _ _ => ⟨rfl, rfl⟩) ?_
  intro s s' hholds k k' hid hrec hrem
  refine ⟨fun htrue => ?_, hrem⟩
  simp only [Session.clearMark, Bool.and_eq_true] at htrue ⊢
  rw [hid]
  exact ⟨hrec htrue.1, hholds _ htrue.2⟩

theorem elideHistory (h : p.Paired q) (elision : Bool) :
    (p.elideHistory elision).Both RetainedBy (q.elideHistory elision) := by
  obtain ⟨stats, p', hdone, hp⟩ := elideHistory_remarked h.left.wellFormed elision
  obtain ⟨stats', q', hdone', hq⟩ := elideHistory_remarked h.right.wellFormed elision
  refine ⟨stats, p', stats', q', hdone, hdone',
    h.retained.grows.congr hp.rechecked.bare_eq hq.rechecked.bare_eq,
    fun c k₁ hk₁ => ?_, fun id r₁ hr₁ => ?_, fun id u₁ hu₁ => ?_⟩
  · obtain ⟨cs, hk⟩ := hp.rechecked.symm.constraint? hk₁
    obtain ⟨k', hk', hmarks⟩ := h.retained.constraint? c _ hk
    obtain ⟨cs', hk₂⟩ := hq.rechecked.constraint? hk'
    exact ⟨_, hk₂, hmarks⟩
  · obtain ⟨needs, hr⟩ := hp.rechecked.symm.rule? hr₁
    obtain ⟨r', hr', _⟩ := h.retained.rule? id _ hr
    obtain ⟨needs', hr₂⟩ := hq.rechecked.rule? hr'
    exact ⟨_, hr₂, h.conserves.needsHistory h.left h.right (fun he => he) hp hq hr₁ hr₂⟩
  · obtain ⟨check, hu⟩ := hp.rechecked.symm.occurrence? hu₁
    obtain ⟨v, hv, hstored, _, hlookups⟩ := h.retained.occurrence? id _ hu
    obtain ⟨check', hv₂⟩ := hq.rechecked.occurrence? hv
    exact ⟨_, hv₂, hstored,
      h.conserves.checkHistory h.left h.right (fun he => he) hp hq hu₁ hv₂, hlookups⟩

end Paired

/-- Indexing comes first, when the larger program still extends the smaller one as it was built. -/
theorem assignLookups_paired (steps further : List BuildStep) (arrayIndexing : Bool) :
    ((build steps).assignLookups arrayIndexing).Both Paired
      ((build (steps ++ further)).assignLookups arrayIndexing) := by
  have h := build_append_extends steps further
  have hp := build_ready steps
  have hq := build_ready (steps ++ further)
  obtain ⟨p', q', hkept, ⟨stats, hdone⟩, stats', hdone'⟩ :=
    h.assignLookups hp.wellFormed hq.wellFormed hp.unfrozen
    hq.unfrozen hp.indexed hq.indexed arrayIndexing
  obtain ⟨_, _, hp', hpr, hpre⟩ := assignLookups_ready hp arrayIndexing
  obtain ⟨_, _, hq', hqr, hqre⟩ := assignLookups_ready hq arrayIndexing
  rw [hdone] at hp'
  rw [hdone'] at hq'
  cases hp'
  cases hq'
  refine ⟨stats, p', stats', q', hdone, hdone', hpr, hqr,
    h.grows.congr hpre.bare_eq hqre.bare_eq, ?_, ?_, ?_⟩
  · intro c k₁ hk₁
    obtain ⟨k, hk, he⟩ := getElem?_of_map_eq hpre.constraints_eq hk₁
    obtain ⟨os, hos⟩ := h.constraint? c k hk
    obtain ⟨cs, hk₂, _⟩ := hqre.constraint? hos
    have hrec := congrArg Constraint.isRecursive he
    have hrem := congrArg Constraint.removees he
    refine ⟨_, hk₂, fun htrue => hrec.trans htrue, fun d hd => ?_⟩
    rw [← show k.removees = k₁.removees from hrem] at hd
    exact hd
  · intro id r hr
    refine ⟨r, ?_, fun hn => hn⟩
    simp only [Program.rule?, hpre.rules_eq] at hr
    simp only [Program.rule?, hqre.rules_eq]
    exact h.rule? hr
  · intro id u hu
    exact ⟨u, getElem?_of_isPrefix hkept hu, fun hs => hs, fun hc => hc, rfl⟩

/-- What the pipeline leaves marked in a program that is built stays marked in every program
that is built further on it. -/
theorem optimize_retained (steps further : List BuildStep) (settings : Settings) :
    ∃ report p report' q, (build steps).optimize settings = .done report p ∧
      (build (steps ++ further)).optimize settings = .done report' q ∧ p.RetainedBy q := by
  have hfinal : ((build steps).optimize settings).Both RetainedBy
      ((build (steps ++ further)).optimize settings) := by
    refine (Outcome.Both.optionally (build_paired steps further) (fun h => h)
      (fun _ => assignLookups_paired steps further settings.arrayIndexing)
      settings.indexing).andThen fun _ _ _ _ h => ?_
    refine (Outcome.Both.optionally h (fun h => h) Paired.planJoins settings.joins).andThen
      fun _ _ _ _ h => ?_
    refine (Outcome.Both.optionally h (fun h => h) Paired.delayStorage settings.storage).andThen
      fun _ _ _ _ h => ?_
    refine (Outcome.Both.optionally h (fun h => h) Paired.findRemovees settings.removees).andThen
      fun _ _ _ _ h => ?_
    refine (Outcome.Both.optionally h (fun h => h) Paired.clearRecursion settings.recursion).andThen
      fun _ _ _ _ h => ?_
    refine (Outcome.Both.optionally h Paired.retained
      (fun h => h.elideHistory settings.duplicateElision)
      settings.history).andThen fun _ _ _ _ h => ?_
    exact ⟨_, _, _, _, rfl, rfl, h⟩
  exact hfinal

end Program

end ConstraintRules
