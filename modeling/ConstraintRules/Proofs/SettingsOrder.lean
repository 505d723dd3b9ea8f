import ConstraintRules.Proofs.ArrayIndexing
import ConstraintRules.Proofs.HistoryMono
import ConstraintRules.Proofs.PassOrder

/-! Stronger settings clear more marks. History only drops more where more was
delayed, found singly or elided. -/

namespace ConstraintRules

/-- Whatever the first settings switch on, the second ones do. -/
structure Settings.AtMost (s t : Settings) : Prop where
  indexing : s.indexing = true → t.indexing = true
  joins : s.joins = true → t.joins = true
  storage : s.storage = true → t.storage = true
  removees : s.removees = true → t.removees = true
  recursion : s.recursion = true → t.recursion = true
  history : s.history = true → t.history = true
  arrayIndexing : s.arrayIndexing = true → t.arrayIndexing = true
  duplicateElision : s.duplicateElision = true → t.duplicateElision = true

instance : LE Settings := ⟨Settings.AtMost⟩

namespace Program

variable {p q p₀ : Program}

/-- Every mark of `q` is a mark of `p`. -/
structure MarkedIn (q p : Program) : Prop where
  bare_eq : q.bare = p.bare
  constraint? : ∀ (c : ConstraintId) (k : Constraint), q.constraint? c = some k →
    ∃ k', p.constraint? c = some k' ∧
    (k.isRecursive = true → k'.isRecursive = true)
  rule? : ∀ (id : RuleId) (r : Rule), q.rule? id = some r → ∃ r', p.rule? id = some r' ∧
    (r.needsHistory = true → r'.needsHistory = true)
  occurrence? : ∀ (id : OccurrenceId) (u : Occurrence), q.occurrence? id = some u →
    ∃ v, p.occurrence? id = some v ∧
    (u.stored = true → v.stored = true) ∧ (u.checkHistory = true → v.checkHistory = true)

section Prepared

variable {s t : Settings} {r r' : Report} (h₀ : p₀.Unannotated) (hst : s ≤ t)
  (hp : p₀.Prepared s r p) (hq : p₀.Prepared t r' q)

include hp hq

theorem Prepared.only_eq {y : Preparation} (hs : y ∈ s.preparations) (ht : y ∈ t.preparations) :
    q.only y.part = p.only y.part :=
  (Outcome.done.inj ((hq.ran y ht).trans (hp.ran y hs).symm)).2

include h₀ hst

theorem Prepared.stored {id : OccurrenceId} {u v : Occurrence} (hu : q.occurrence? id = some u)
    (hv : p.occurrence? id = some v) (hstored : u.stored = true) : v.stored = true := by
  cases hs : s.storage with
  | true =>
    have honly : q.only .storage = p.only .storage :=
      hp.only_eq hq (y := .storage) (by simp [Settings.preparations, hs])
        (by simp [Settings.preparations, hst.storage hs])
    have hget : (q.only .storage).occurrence? id = (p.only .storage).occurrence? id := by rw [honly]
    rw [occurrence?_only, occurrence?_only, hu, hv] at hget
    have hmark := congrArg Occurrence.stored (Option.some.inj hget)
    exact hmark.symm.trans hstored
  | false =>
    have hbare :=
      hp.only_eq_bare h₀ (x := .storage) (by simp [Settings.preparations, hs, Preparation.part])
    have hget : (p.only .storage).occurrence? id = p.bare.occurrence? id := by rw [hbare]
    rw [occurrence?_only, occurrence?_bare, hv] at hget
    have hmark := congrArg Occurrence.stored (Option.some.inj hget)
    exact hmark

theorem Prepared.isRecursive {c : ConstraintId} {k k' : Constraint} (hk : q.constraint? c = some k)
    (hk' : p.constraint? c = some k') (hrec : k.isRecursive = true) : k'.isRecursive = true := by
  cases hs : s.recursion with
  | true =>
    have honly : q.only .recursion = p.only .recursion :=
      hp.only_eq hq (y := .recursion) (by simp [Settings.preparations, hs])
        (by simp [Settings.preparations, hst.recursion hs])
    have hget : (q.only .recursion).constraint? c = (p.only .recursion).constraint? c := by
      rw [honly]
    rw [constraint?_only, constraint?_only, hk, hk'] at hget
    have hmark := congrArg Constraint.isRecursive (Option.some.inj hget)
    exact hmark.symm.trans hrec
  | false =>
    have hbare :=
      hp.only_eq_bare h₀ (x := .recursion) (by simp [Settings.preparations, hs, Preparation.part])
    have hget : (p.only .recursion).constraint? c = p.bare.constraint? c := by rw [hbare]
    rw [constraint?_only, constraint?_bare, hk'] at hget
    have hmark := congrArg Constraint.isRecursive (Option.some.inj hget)
    exact hmark

theorem Prepared.findsOne {id id' : OccurrenceId} {u v u' v' : Occurrence}
    (hu : q.occurrence? id = some u)
    (hv : p.occurrence? id = some v) (hu' : q.occurrence? id' = some u')
    (hv' : p.occurrence? id' = some v')
    (hone : p.FindsOne v v') : q.FindsOne u u' := by
  cases hs : s.indexing with
  | true =>
    obtain ⟨_, p₁, hp₁, hponly⟩ := hp.assigned hs
    obtain ⟨_, q₁, hq₁, hqonly⟩ := hq.assigned (hst.indexing hs)
    have hsame : q₁.indirect = p₁.indirect := by
      have hpi := assignLookups_indirect hp₁
      have hqi := assignLookups_indirect hq₁
      rw [hpi] at hqi
      exact (Outcome.done.inj hqi).2.symm
    have hindirect : (q.only .lookups).indirect = (p.only .lookups).indirect := by
      rw [hponly, hqonly, only_indirect, only_indirect, hsame]
    exact FindsOne.of_indirect_eq hindirect hu hv hu' hv' hone
  | false =>
    -- without indexing there is no lookup that could find a single partner
    have hbare :=
      hp.only_eq_bare h₀ (x := .lookups) (by simp [Settings.preparations, hs, Preparation.part])
    have hget : (p.only .lookups).occurrence? id = p.bare.occurrence? id := by rw [hbare]
    rw [occurrence?_only, occurrence?_bare, hv] at hget
    have hnone := congrArg Occurrence.lookups (Option.some.inj hget)
    obtain ⟨l, _, _, hl, _⟩ := hone
    rw [Occurrence.lookup?, show v.lookups = [] from hnone] at hl
    cases hl

theorem Prepared.conserves : q.Conserves p where
  grows := .of_bare_eq (hp.bare_eq.trans hq.bare_eq.symm)
  stored _ _ _ hu hv := hp.stored h₀ hst hq hu hv
  findsOne _ _ _ _ _ _ hu hv hu' hv' := hp.findsOne h₀ hst hq hu hv hu' hv'

end Prepared

/-- For every program that is built, the pipeline is done with either settings, and every mark
that the stronger settings leave is left by the weaker ones. -/
theorem optimize_marks_antitone (steps : List BuildStep) {weaker stronger : Settings}
    (h : weaker ≤ stronger) :
    ∃ report p report' q, (build steps).optimize weaker = .done report p ∧
      (build steps).optimize stronger = .done report' q ∧ q.MarkedIn p := by
  have h₀ := build_unannotated steps
  obtain ⟨r, p, hp⟩ := (build_ready steps).prepared weaker
  obtain ⟨r', q, hq⟩ := (build_ready steps).prepared stronger
  have hconserves : q.Conserves p := hp.conserves h₀ h hq
  obtain ⟨stats, p', hdone, hpre, hpm, hpe⟩ :=
    optionally_elideHistory hp.ready weaker.history weaker.duplicateElision
  obtain ⟨stats', q', hdone', hqre, hqm, _⟩ :=
    optionally_elideHistory hq.ready stronger.history stronger.duplicateElision
  refine ⟨{ r with history := stats }, p', { r' with history := stats' }, q', ?_, ?_, ?_⟩
  · rw [optimize_eq, hp.run, Outcome.andThen, hdone, Outcome.andThen]
  · rw [optimize_eq, hq.run, Outcome.andThen, hdone', Outcome.andThen]
  · have hbare : q'.bare = p'.bare := by
      rw [hqre.bare_eq, hpre.bare_eq, hq.bare_eq, hp.bare_eq]
    have hneeds : ∀ id r₁ r₂, q'.rule? id = some r₁ → p'.rule? id = some r₂ →
        r₁.needsHistory = true →
        r₂.needsHistory = true := by
      intro id r₁ r₂ hr₁ hr₂ htrue
      cases hh : weaker.history with
      | true =>
        exact hconserves.needsHistory hq.ready hp.ready h.duplicateElision (hqm (h.history hh))
          (hpm hh) hr₁ hr₂ htrue
      | false =>
        rw [hpe hh] at hr₂
        exact hp.ready.kept r₂ (mem_rules_iff.mpr ⟨id, hr₂⟩)
    have hcheck : ∀ id u₁ v₁, q'.occurrence? id = some u₁ → p'.occurrence? id = some v₁ →
        u₁.checkHistory = true →
        v₁.checkHistory = true := by
      intro id u₁ v₁ hu₁ hv₁ htrue
      cases hh : weaker.history with
      | true =>
        exact hconserves.checkHistory hq.ready hp.ready h.duplicateElision (hqm (h.history hh))
          (hpm hh) hu₁ hv₁ htrue
      | false =>
        rw [hpe hh] at hv₁
        exact hp.ready.checked v₁ (mem_occurrences_iff.mpr ⟨id, hv₁⟩)
    refine ⟨hbare, fun c k₁ hk₁ => ?_, fun id r₁ hr₁ => ?_, fun id u₁ hu₁ => ?_⟩
    · obtain ⟨k₂, _, _, _, hk₂, _⟩ := constraint?_of_bare_eq hbare hk₁
      obtain ⟨_, hk⟩ := hqre.symm.constraint? hk₁
      obtain ⟨_, hk'⟩ := hpre.symm.constraint? hk₂
      have hrec := hp.isRecursive h₀ h hq hk hk'
      exact ⟨k₂, hk₂, hrec⟩
    · obtain ⟨r₂, _, _, hr₂, _⟩ := rule?_of_bare_eq hbare hr₁
      exact ⟨r₂, hr₂, hneeds id r₁ r₂ hr₁ hr₂⟩
    · obtain ⟨v₁, _, _, _, hv₁, _⟩ := occurrence?_of_bare_eq hbare hu₁
      obtain ⟨_, hu⟩ := hqre.symm.occurrence? hu₁
      obtain ⟨_, hv⟩ := hpre.symm.occurrence? hv₁
      have hstored := hp.stored h₀ h hq hu hv
      exact ⟨v₁, hv₁, hstored, hcheck id u₁ v₁ hu₁ hv₁⟩

/-- A rule that joins two edges into a path, under the conservative settings
and under the default ones. -/
theorem optimize_marks_antitone_paths :
    let steps : List BuildStep := [.ensure "edge" 2, .ensure "path" 2,
      .rule "join" [.kept ⟨0⟩ ["X", "Y"], .kept ⟨1⟩ ["Y", "Z"], .call ⟨1⟩ ["X", "Z"]]]
    Settings.conservative ≤ Settings.default ∧ ∃ report p report' q,
      (build steps).optimize Settings.conservative = .done report p ∧
        (build steps).optimize Settings.default = .done report' q ∧ q.MarkedIn p := by
  have hle : Settings.conservative ≤ Settings.default := by
    constructor <;> intro _ <;> rfl
  exact ⟨hle, optimize_marks_antitone _ hle⟩

end Program

end ConstraintRules
