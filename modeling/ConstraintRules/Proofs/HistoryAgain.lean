import ConstraintRules.Proofs.BareReads
import ConstraintRules.Proofs.Freezing

/-! History a second time. The first run drops every check that it can, so that a
second one finds nothing to drop. -/

namespace ConstraintRules

open Activation

namespace Program

variable {p q : Program} {s : Session} {elision : Bool}

section Verdict

theorem readSingletons_cons (p : Program) (o u : Occurrence) (us : List Occurrence) :
    p.readSingletons o (u :: us) =
      match (o.lookup? u.id).bind fun l =>
        ((p.category? u.constraint l.category).map Category.path).map (l.category, ·) with
      | none => (false, [])
      | some (id, path) =>
        if path.isSingleton u.arity then
          ((p.readSingletons o us).1, (u.constraint, id) :: (p.readSingletons o us).2)
        else (false, [(u.constraint, id)]) := by
  rw [readSingletons]
  cases o.lookup? u.id with
  | none => rfl
  | some l =>
    simp only [category?, Option.bind_eq_bind, Option.bind_some]
    cases p.constraint? u.constraint with
    | none => rfl
    | some k =>
      simp only [Option.bind_some]
      cases k.categories.get? l.category <;> rfl

theorem map_path_category? (p : Program) (c : ConstraintId) (id : CategoryId) :
    (p.category? c id).map Category.path =
      ((p.constraint? c).map fun k => k.categories.paths).bind fun paths => paths[id.index]? := by
  rw [category?]
  cases p.constraint? c with
  | none => rfl
  | some k => exact (k.categories.getElem?_paths id).symm

namespace Rechecked

theorem path_eq (h : p.Rechecked q) (c : ConstraintId) (id : CategoryId) :
    (q.category? c id).map Category.path = (p.category? c id).map Category.path := by
  have hpaths : ((q.constraint? c).map fun k => k.categories.paths) =
      (p.constraint? c).map fun k => k.categories.paths := by
    rw [Program.constraint?, Program.constraint?, ← List.getElem?_map,
      ← List.getElem?_map, h.paths_eq]
  rw [map_path_category?, map_path_category?, hpaths]

theorem readSingletons_eq (h : p.Rechecked q) {u v : Occurrence} (huv : v.checked = u.checked)
    {us vs : List Occurrence} (hus : vs.map Occurrence.checked = us.map Occurrence.checked) :
    q.readSingletons v vs = p.readSingletons u us := by
  have hlookups := congrArg Occurrence.lookups huv
  have hlookup : ∀ id, v.lookup? id = u.lookup? id := fun id => by
    rw [Occurrence.lookup?, Occurrence.lookup?, show v.lookups = u.lookups from hlookups]
  induction us generalizing vs with
  | nil =>
    rw [List.map_eq_nil_iff.mp hus]
    rfl
  | cons u' us ih =>
    cases vs with
    | nil => cases hus
    | cons v' vs =>
      obtain ⟨he, hrest⟩ := List.cons.inj hus
      have hid := congrArg Occurrence.id he
      have hc := congrArg Occurrence.constraint he
      have harity := congrArg Occurrence.arity he
      rw [readSingletons_cons, readSingletons_cons, ih hrest, show v'.id = u'.id from hid,
        show v'.constraint = u'.constraint from hc, show v'.arity = u'.arity from harity, hlookup]
      simp only [h.path_eq]

theorem verdict_eq (h : p.Rechecked q) (before : Bool) {u v : Occurrence}
    (huv : v.checked = u.checked) {us vs : List Occurrence}
    (hus : vs.map Occurrence.checked = us.map Occurrence.checked) :
    q.verdict s elision before v vs = p.verdict s elision before u us := by
  have hrule := congrArg Occurrence.rule huv
  have hc := congrArg Occurrence.constraint huv
  have hstored := congrArg Occurrence.stored huv
  have hempty : vs.isEmpty = us.isEmpty := by
    simpa using congrArg List.isEmpty hus
  have hany : (vs.any fun q => s.firesAgain u.rule q.constraint) =
      us.any fun q => s.firesAgain u.rule q.constraint := by
    have hmap : ∀ os : List Occurrence,
        ((os.map Occurrence.checked).any fun q => s.firesAgain u.rule q.constraint) =
        os.any fun q => s.firesAgain u.rule q.constraint := fun os => by
      rw [List.any_map]
      rfl
    rw [← hmap vs, hus, hmap]
  rw [verdict, verdict, show v.rule = u.rule from hrule, show v.constraint = u.constraint from hc,
    show v.stored = u.stored from hstored, hempty, hany, h.readSingletons_eq huv hus]

theorem headPartners?_eq (h : p.Rechecked q) {u v : Occurrence} (hrule : v.rule = u.rule)
    (hid : v.id = u.id) :
    q.headPartners? v = p.headPartners? u := by
  have hheads : (q.rule? u.rule).map Rule.kept = (p.rule? u.rule).map Rule.kept := by
    rw [Program.rule?, Program.rule?, ← List.getElem?_map, ← List.getElem?_map, h.rules_eq]
  have hpartners : ∀ t : Program, t.headPartners? u =
      ((t.rule? u.rule).map Rule.kept).map fun r => r.head.filter fun id =>
        decide (id ≠ u.id) := fun t => by
    rw [headPartners?, Option.map_map]
    rfl
  rw [show q.headPartners? v = q.headPartners? u by rw [headPartners?, headPartners?, hrule, hid],
    hpartners, hpartners, hheads]

theorem resolve?_map_checked (h : p.Rechecked q) (ids : List OccurrenceId) :
    (q.resolve? ids).map (List.map Occurrence.checked) =
      (p.resolve? ids).map (List.map Occurrence.checked) := by
  have hone : ∀ id, (q.occurrence? id).map Occurrence.checked =
      (p.occurrence? id).map Occurrence.checked := fun id => by
    rw [Program.occurrence?, Program.occurrence?, ← List.getElem?_map, ← List.getElem?_map,
      h.occurrences_eq]
  simp only [Program.resolve?, ← mapM_option_map, hone]

theorem judged (h : p.Rechecked q) {id : OccurrenceId} {u v : Occurrence}
    (hu : p.occurrence? id = some u) (hv : q.occurrence? id = some v)
    (hcheck : v.checkHistory = true → u.checkHistory = true)
    (hneeds : ∀ r r', p.rule? u.rule = some r → q.rule? u.rule = some r' → r'.needsHistory = true →
      r.needsHistory = true)
    {w : Verdict} (hj : q.Judged s elision v w) : p.Judged s elision u w := by
  obtain ⟨check, hv'⟩ := h.occurrence? hu
  rw [hv] at hv'
  cases hv'
  obtain ⟨r', ids, partners', before, hr', hneeds', hcheck', hids, hpartners', hbefore, rfl⟩ := hj
  obtain ⟨needs, hr⟩ := h.symm.rule? hr'
  have hpartners := h.resolve?_map_checked ids
  rw [hpartners', Option.map_some] at hpartners
  obtain ⟨partners, hpartners, hsame⟩ := Option.map_eq_some_iff.mp hpartners.symm
  have hstored : q.StoredBefore { u with checkHistory := check } ↔ p.StoredBefore u :=
    ⟨h.symm.conserves.storedBefore hv hu, h.conserves.storedBefore hu hv⟩
  refine ⟨_, ids, partners, before, hr, hneeds _ _ hr hr' hneeds', hcheck hcheck', ?_, hpartners,
    hbefore.trans hstored, ?_⟩
  · rw [← h.headPartners?_eq (u := u) rfl rfl]
    exact hids
  · have huv : ({ u with checkHistory := check } : Occurrence).checked = u.checked := rfl
    exact h.verdict_eq before huv hsame.symm

end Rechecked

end Verdict

theorem dropHistory_nil (p : Program) : p.dropHistory [] = p := by
  simp [dropHistory]

theorem spare_eq_self {vs : List (OccurrenceId × Verdict)}
    (hneeded : (vs.filter fun v => !v.2.needed) = []) (hreads : ∀ v ∈ vs, v.2.reads = [])
    (p : Program) : p.spare vs = p := by
  have hflat : (vs.flatMap fun v => v.2.reads) = [] := List.flatMap_eq_nil_iff.mpr hreads
  rw [spare, hneeded, hflat]
  simp [clearChecks, freezeCategories]

theorem reads_eq_nil (h : p.WellFormed) {vs : List (OccurrenceId × Verdict)}
    (hvs : p.verdicts? s elision = some vs) (hu : (p.spare vs).Unfrozen) :
    ∀ v ∈ vs, v.2.reads = [] := by
  rintro ⟨id, v⟩ hv
  rw [List.eq_nil_iff_forall_not_mem]
  intro cc hcc
  obtain ⟨vs', hvs', hjudged⟩ := h.verdicts?_judged s elision
  rw [hvs] at hvs'
  cases hvs'
  obtain ⟨o, _, _, hj⟩ := (hjudged id v).mp hv
  obtain ⟨l, _, u, d, _, rfl, hd⟩ := hj.mem_reads h hcc
  -- the category that is read would have been left frozen
  have hspare := p.category?_spare vs u.constraint l.category
  rw [hd, Option.map_some, if_pos (List.mem_flatMap.mpr ⟨_, hv, hcc⟩)] at hspare
  have hfrozen := hu.category? hspare
  cases hfrozen

section Remarked

variable (hq : p.Remarked elision (p.Continues elision) q)

include hq

theorem Remarked.continues {id : RuleId} {r : Rule} (hr : q.rule? id = some r)
    (hneeds : r.needsHistory = true) :
    p.rule? id = some r ∧ p.Continues elision r := by
  obtain ⟨needs, hp⟩ := hq.rechecked.symm.rule? hr
  obtain ⟨needs', hr', hiff⟩ := hq.rule? id _ hp
  rw [hr] at hr'
  have hsame := congrArg Rule.needsHistory (Option.some.inj hr')
  obtain ⟨hbefore, hcont⟩ := hiff.mp (hsame.symm.trans hneeds)
  have hrule : { r with needsHistory := needs } = r := by
    rw [show needs = r.needsHistory from hbefore.trans hneeds.symm]
  rw [hrule] at hp hcont
  exact ⟨hp, hcont⟩

variable (h : p.WellFormed)

include h

theorem Remarked.not_dismissed {r : Rule} (hr : r ∈ q.rules) :
    ¬(r.isSpent || q.isHarmless r) = true := by
  have hqw : q.WellFormed := h.of_bare_eq hq.rechecked.bare_eq
  rw [dismissed_iff hqw hr]
  rintro ⟨hneeds, hnot⟩
  have hget := hqw.rule?_id hr
  obtain ⟨hp, hcont⟩ := hq.continues hget hneeds
  exact hnot ((Grows.of_bare_eq hq.rechecked.bare_eq).keepsHistory h hqw hp hget hcont.1)

theorem Remarked.filter_isHarmless : q.rules.filter q.isHarmless = [] :=
  List.filter_eq_nil_iff.mpr fun r hr hharmless =>
    hq.not_dismissed h hr (by rw [hharmless, Bool.or_true])

theorem Remarked.dismiss_eq : q.dismiss = q := by
  have hspent : q.rules.filter Rule.isSpent = [] :=
    List.filter_eq_nil_iff.mpr fun r hr hspent =>
      hq.not_dismissed h hr (by rw [hspent, Bool.true_or])
  rw [dismiss, hspent, hq.filter_isHarmless h]
  exact dropHistory_nil q

theorem Remarked.not_spared {o : Occurrence} (ho : o ∈ q.active) : ¬q.Spared elision o := by
  have hqw : q.WellFormed := h.of_bare_eq hq.rechecked.bare_eq
  obtain ⟨hmem, ha⟩ := mem_active.mp ho
  have hget := hqw.occurrence?_id hmem
  rintro ⟨r, hr, hneeds, hcheck, hnot⟩
  obtain ⟨hrp, _⟩ := hq.continues hr hneeds
  obtain ⟨check, hp⟩ := hq.rechecked.symm.occurrence? hget
  obtain ⟨check', hget', hc⟩ := hq.active o.id _ r hp hrp ha
  rw [hget] at hget'
  have hsame := congrArg Occurrence.checkHistory (Option.some.inj hget')
  have hkept := (hc.mp (hsame.symm.trans hcheck)).2 hneeds
  exact hnot ((hq.rechecked.mayRepeat_iff hp hget rfl elision).mpr hkept.2)

theorem Remarked.not_isUnchecked {r : Rule} (hr : r ∈ q.rules) : ¬q.isUnchecked r = true := by
  have hqw : q.WellFormed := h.of_bare_eq hq.rechecked.bare_eq
  rw [Program.isUnchecked_iff hqw hr]
  rintro ⟨hneeds, _, hall⟩
  obtain ⟨hrp, hkeeps, o, ho, hrule, hcheck, hrep⟩ := hq.continues (hqw.rule?_id hr) hneeds
  obtain ⟨hmem, ha⟩ := mem_active.mp ho
  obtain ⟨check, ho', hc⟩ :=
    hq.active o.id o r (h.occurrence?_id hmem) (by rw [hrule]; exact hrp) ha
  have hchecked : check = true := hc.mpr ⟨hcheck, fun _ => ⟨hkeeps, hrep⟩⟩
  have hunchecked := hall _ (mem_active.mpr ⟨mem_occurrences_iff.mpr ⟨_, ho'⟩, ha⟩) hrule
  rw [show check = false from hunchecked] at hchecked
  cases hchecked

theorem Remarked.judged_dismiss {o : Occurrence} (ho : o ∈ q.active) {v : Verdict}
    (hj : q.Judged s elision o v) :
    ∃ u ∈ p.dismiss.active, u.id = o.id ∧ p.dismiss.Judged s elision u v := by
  have hqw : q.WellFormed := h.of_bare_eq hq.rechecked.bare_eq
  obtain ⟨hre, hrule, hocc⟩ := dismiss_spec h
  obtain ⟨hmem, ha⟩ := mem_active.mp ho
  have hget := hqw.occurrence?_id hmem
  obtain ⟨check, hp⟩ := hq.rechecked.symm.occurrence? hget
  have ⟨r, _, _, _, hr, hneeds, _⟩ := hj
  obtain ⟨hrp, hcont⟩ := hq.continues hr hneeds
  obtain ⟨check', hget', hc⟩ := hq.active o.id _ r hp hrp ha
  obtain ⟨check₁, hd, hc₁⟩ := hocc o.id _ r hp hrp
  obtain ⟨needs₁, hrd, hn₁⟩ := hrule o.rule r hrp
  rw [hget] at hget'
  have hsame := congrArg Occurrence.checkHistory (Option.some.inj hget')
  refine ⟨_, mem_active.mpr ⟨mem_occurrences_iff.mpr ⟨_, hd⟩, ha⟩, rfl, ?_⟩
  refine (hre.symm.trans hq.rechecked).judged hd hget (fun hcheck => ?_)
    (fun r₁ r' hr₁ _ _ => ?_) hj
  · exact hc₁.mpr ⟨(hc.mp (hsame.symm.trans hcheck)).1, fun _ _ => hcont.1⟩
  · rw [show p.dismiss.rule? o.rule = some r₁ from hr₁] at hrd
    rw [Option.some.inj hrd]
    exact hn₁.mpr ⟨hneeds, hcont.1⟩

theorem Remarked.verdicts?_again (hs : p.KnownTo s) {vs : List (OccurrenceId × Verdict)}
    (hvs : p.dismiss.verdicts? s elision = some vs) (hreads : ∀ v ∈ vs, v.2.reads = []) :
    ∃ vs', q.verdicts? s elision = some vs' ∧ (vs'.filter fun v => !v.2.needed) = [] ∧
      ∀ v ∈ vs', v.2.reads = [] := by
  have hqw : q.WellFormed := h.of_bare_eq hq.rechecked.bare_eq
  have hdw : p.dismiss.WellFormed := h.of_bare_eq (dismiss_spec h).1.bare_eq
  obtain ⟨vs₁, hvs₁, hfirst⟩ := hdw.verdicts?_judged s elision
  rw [hvs] at hvs₁
  cases hvs₁
  obtain ⟨vs', hvs', hsecond⟩ := hqw.verdicts?_judged s elision
  refine ⟨vs', hvs', List.filter_eq_nil_iff.mpr ?_, ?_⟩
  · rintro ⟨id, v⟩ hv hneeded
    obtain ⟨o, ho, _, hj⟩ := (hsecond id v).mp hv
    have hspared :=
      (spared_iff hqw (hs.of_bare_eq hq.rechecked.bare_eq) elision ho).mpr ⟨v, hj,
        by simpa using hneeded⟩
    exact hq.not_spared h ho hspared
  · rintro ⟨id, v⟩ hv
    obtain ⟨o, ho, _, hj⟩ := (hsecond id v).mp hv
    obtain ⟨u, hu, _, hj'⟩ := hq.judged_dismiss h ho hj
    exact hreads (u.id, v) ((hfirst u.id v).mpr ⟨u, hu, rfl, hj'⟩)

end Remarked

variable {stats : HistoryStats}

/-- As long as no category is frozen, there is nothing left to elide a second time. -/
theorem elideHistory_again (h : p.WellFormed) (hdone : p.elideHistory elision = .done stats q)
    (hu : q.Unfrozen) :
    q.constraints = p.constraints ∧ q.elideHistory elision = .done ⟨0, 0, 0⟩ q := by
  obtain ⟨s, vs, t, hs, hknown, hvs, ht, hdone₁⟩ := elideHistory_eq h elision
  have hq := remarked_of_done h hdone
  rw [hdone] at hdone₁
  obtain ⟨_, hqt⟩ := Outcome.done.inj hdone₁
  have hconstraints : q.constraints = (p.dismiss.spare vs).constraints := by
    rw [hqt, ht]
    rfl
  have hdw : p.dismiss.WellFormed := h.of_bare_eq (dismiss_spec h).1.bare_eq
  have hreads : ∀ v ∈ vs, v.2.reads = [] :=
    reads_eq_nil hdw hvs fun k hk => hu k (by rw [hconstraints]; exact hk)
  have hnone : (vs.flatMap fun v => v.2.reads) = [] := List.flatMap_eq_nil_iff.mpr hreads
  refine ⟨by rw [hconstraints, spare, hnone]; rfl, ?_⟩
  -- the session and the bodies are those of the first run, as neither depends on annotations
  have hsession : q.observationSession? = p.observationSession? := by
    rw [← q.observationSession?_bare, hq.rechecked.bare_eq, p.observationSession?_bare]
  have hbodies : q.bodies = p.bodies := by
    rw [← q.bodies_bare, hq.rechecked.bare_eq, p.bodies_bare]
  obtain ⟨vs', hvs', hneeded', hreads'⟩ := hq.verdicts?_again h hknown hvs hreads
  obtain ⟨s', vs₂, t', hs', _, hvs₂, ht', hdone'⟩ :=
    elideHistory_eq (h.of_bare_eq hq.rechecked.bare_eq) elision
  rw [hsession, hs] at hs'
  cases hs'
  rw [hq.dismiss_eq h, hbodies, hvs'] at hvs₂
  cases hvs₂
  rw [hq.dismiss_eq h, spare_eq_self hneeded' hreads'] at ht'
  subst ht'
  have hunchecked : q.rules.filter q.isUnchecked = [] :=
    List.filter_eq_nil_iff.mpr fun r hr => hq.not_isUnchecked h hr
  rw [hdone', hneeded', hq.filter_isHarmless h, hunchecked, dropHistory_nil]
  rfl

end Program

end ConstraintRules
