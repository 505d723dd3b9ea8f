import ConstraintRules.Proofs.Preparation
import ConstraintRules.Proofs.Repetition

/-! Propagation history is exact: an active occurrence keeps its check just if its
rule keeps a history and a firing may be repeated. -/

namespace ConstraintRules

open Activation

def Rule.kept (r : Rule) : Rule := { r with needsHistory := true }

def Occurrence.checked (o : Occurrence) : Occurrence := { o with checkHistory := true }

namespace Program

variable {p q s : Program}

/-- The programs differ in history marks and in which categories are frozen. -/
structure Rechecked (p q : Program) : Prop where
  symbols_eq : q.symbols = p.symbols
  constraints_eq : q.constraints.map Constraint.unindexed = p.constraints.map Constraint.unindexed
  paths_eq : (q.constraints.map fun k => k.categories.paths) =
    p.constraints.map fun k => k.categories.paths
  rules_eq : q.rules.map Rule.kept = p.rules.map Rule.kept
  occurrences_eq : q.occurrences.map Occurrence.checked = p.occurrences.map Occurrence.checked

namespace Rechecked

theorem symm (h : p.Rechecked q) : q.Rechecked p :=
  ⟨h.symbols_eq.symm, h.constraints_eq.symm, h.paths_eq.symm, h.rules_eq.symm,
    h.occurrences_eq.symm⟩

theorem trans (h : p.Rechecked q) (h' : q.Rechecked s) : p.Rechecked s :=
  ⟨h'.symbols_eq.trans h.symbols_eq, h'.constraints_eq.trans h.constraints_eq,
    h'.paths_eq.trans h.paths_eq,
    h'.rules_eq.trans h.rules_eq, h'.occurrences_eq.trans h.occurrences_eq⟩

theorem bare_eq (h : p.Rechecked q) : q.bare = p.bare := by
  have hc := congrArg (List.map Constraint.bare) h.constraints_eq
  have hr := congrArg (List.map Rule.bare) h.rules_eq
  have ho := congrArg (List.map Occurrence.bare) h.occurrences_eq
  rw [List.map_map, List.map_map] at hc hr ho
  have hc' : q.constraints.map Constraint.bare = p.constraints.map Constraint.bare := hc
  have hr' : q.rules.map Rule.bare = p.rules.map Rule.bare := hr
  have ho' : q.occurrences.map Occurrence.bare = p.occurrences.map Occurrence.bare := ho
  simp only [bare, hc', hr', ho', h.symbols_eq]

theorem occurrence? (h : p.Rechecked q) {id : OccurrenceId} {u : Occurrence}
    (hu : p.occurrence? id = some u) :
    ∃ check, q.occurrence? id = some { u with checkHistory := check } := by
  obtain ⟨v, hv, he⟩ := getElem?_of_map_eq h.occurrences_eq.symm hu
  refine ⟨v.checkHistory, ?_⟩
  cases u
  cases v
  cases he
  exact hv

theorem constraint? (h : p.Rechecked q) {c : ConstraintId} {k : Constraint}
    (hk : p.constraint? c = some k) :
    ∃ cs, q.constraint? c = some { k with categories := cs } := by
  obtain ⟨k', hk', he⟩ := getElem?_of_map_eq h.constraints_eq.symm hk
  refine ⟨k'.categories, ?_⟩
  cases k
  cases k'
  cases he
  exact hk'

theorem rule? (h : p.Rechecked q) {id : RuleId} {r : Rule} (hr : p.rule? id = some r) :
    ∃ needs, q.rule? id = some { r with needsHistory := needs } := by
  obtain ⟨r', hr', he⟩ := getElem?_of_map_eq h.rules_eq.symm hr
  refine ⟨r'.needsHistory, ?_⟩
  cases r
  cases r'
  cases he
  exact hr'

theorem conserves (h : p.Rechecked q) : p.Conserves q where
  grows := .of_bare_eq h.bare_eq
  stored id u v hu hv hs := by
    obtain ⟨check, hv'⟩ := h.occurrence? hu
    rw [hv] at hv'
    cases hv'
    exact hs
  findsOne id id' u v u' v' hu hv hu' hv' hone := by
    obtain ⟨check, hv₁⟩ := h.occurrence? hu
    obtain ⟨check', hv₂⟩ := h.occurrence? hu'
    rw [hv] at hv₁
    rw [hv'] at hv₂
    cases hv₁
    cases hv₂
    obtain ⟨l, k, path, hl, hk, hpath, hsingle⟩ := hone
    obtain ⟨k', hk', hpaths⟩ := getElem?_of_map_eq h.paths_eq hk
    exact ⟨l, k', path, hl, hk', hpaths ▸ hpath, hsingle⟩

theorem mayRepeat_iff (h : p.Rechecked q) {id : OccurrenceId} {u v : Occurrence}
    (hu : p.occurrence? id = some u) (hv : q.occurrence? id = some v) {r r' : Rule}
    (hhead : r'.head = r.head) (elision : Bool) :
    q.MayRepeat elision r' v ↔ p.MayRepeat elision r u :=
  ⟨h.symm.conserves.mayRepeat hv hu hhead.symm, h.conserves.mayRepeat hu hv hhead⟩

end Rechecked

theorem KnownTo.of_bare_eq {s : Session} (hs : p.KnownTo s) (hb : q.bare = p.bare) :
    q.KnownTo s := by
  have hpq : p.Grows q := .of_bare_eq hb
  have hqp : q.Grows p := .of_bare_eq hb.symm
  refine ⟨fun c r => ?_, fun r c => ?_, fun r c => ?_⟩
  · rw [hs.bodySees]
    exact ⟨hpq.bodyObserves, hqp.bodyObserves⟩
  · rw [hs.reactivates]
    exact and_congr ⟨hpq.reactive, hqp.reactive⟩ ⟨hpq.reachesTrigger, hqp.reachesTrigger⟩
  · rw [hs.activates]
    exact ⟨hpq.activates, hqp.activates⟩

section Scan

theorem mem_activeOf {c : ConstraintId} {o : Occurrence} :
    o ∈ p.activeOf c ↔ o ∈ p.active ∧ o.constraint = c := by
  simp [activeOf]

/-- Occurrences are scanned in the order of their numbers, so those before are the earlier ones. -/
theorem Arranged.storedBefore_iff (h : p.Arranged) {c : ConstraintId}
    {before after : List Occurrence}
    {o : Occurrence} (hscan : p.activeOf c = before ++ o :: after) :
    before.any Occurrence.stored = true ↔ p.StoredBefore o := by
  have hsorted : (before ++ o :: after).Pairwise fun u v => u.id.index < v.id.index := by
    rw [← hscan]
    exact (h.pairwise_id_lt.filter _).filter _
  obtain ⟨_, hrest, hcross⟩ := List.pairwise_append.mp hsorted
  have hoc : o.constraint = c := (mem_activeOf.mp (by rw [hscan]; simp)).2
  rw [List.any_eq_true]
  constructor
  · rintro ⟨u, hu, hs⟩
    have hmem : u ∈ p.activeOf c := by
      rw [hscan]
      exact List.mem_append_left _ hu
    have huc := mem_activeOf.mp hmem
    exact ⟨u, huc.1, huc.2.trans hoc.symm, hcross u hu o List.mem_cons_self, hs⟩
  · rintro ⟨u, hu, huc, hlt, hs⟩
    have hmem : u ∈ before ++ o :: after := by
      rw [← hscan]
      exact mem_activeOf.mpr ⟨hu, huc.trans hoc⟩
    rcases List.mem_append.mp hmem with hbefore | hafter
    · exact ⟨u, hbefore, hs⟩
    · rcases List.mem_cons.mp hafter with rfl | hafter
      · omega
      · have := (List.pairwise_cons.mp hrest).1 u hafter
        omega

/-- The check of an active occurrence is dropped by the scan. -/
def Spared (p : Program) (elision : Bool) (o : Occurrence) : Prop :=
  ∃ r, p.rule? o.rule = some r ∧ r.needsHistory = true ∧ o.checkHistory = true ∧
    ¬p.MayRepeat elision r o

theorem length_head_eq (h : p.WellFormed) {o : Occurrence} (ho : o ∈ p.occurrences)
    (hpos : o.head = .positive) {r : Rule} (hr : p.rule? o.rule = some r) :
    r.head.length = (r.head.filter fun id => decide (id ≠ o.id)).length + 1 := by
  have hmem : r ∈ p.rules := mem_rules_iff.mpr ⟨_, hr⟩
  have hid : o.id ∈ r.head := (h.mem_head ho hmem).mpr ⟨(h.id_of_rule? hr).symm, hpos⟩
  have herase : r.head.erase o.id = r.head.filter fun id => decide (id ≠ o.id) := by
    rw [(h.nodup_head hmem).erase_eq_filter]
    apply List.filter_congr
    intro id _
    by_cases hid : id = o.id <;> simp [hid]
  rw [← herase, List.length_erase_of_mem hid]
  have hpositive := List.length_pos_of_mem hid
  omega

/-- The scan passes the verdict on the occurrence. -/
def Judged (p : Program) (s : Session) (elision : Bool) (o : Occurrence) (v : Verdict) : Prop :=
  ∃ r ids partners before, p.rule? o.rule = some r ∧ r.needsHistory = true ∧ o.checkHistory = true ∧
    p.headPartners? o = some ids ∧ p.resolve? ids = some partners ∧
      (before = true ↔ p.StoredBefore o) ∧
    v = p.verdict s elision before o partners

theorem judged_iff {s : Session} {elision : Bool} {o : Occurrence} {r : Rule}
    {ids : List OccurrenceId} {partners : List Occurrence} {before : Bool}
    (hr : p.rule? o.rule = some r) (hids : p.headPartners? o = some ids)
    (hpartners : p.resolve? ids = some partners) (hbefore : before = true ↔ p.StoredBefore o)
    {v : Verdict} :
    p.Judged s elision o v ↔ (r.needsHistory && o.checkHistory) = true ∧
      v = p.verdict s elision before o partners := by
  rw [Bool.and_eq_true]
  constructor
  · rintro ⟨r', ids', partners', before', hr', hneeds, hcheck, hids', hpartners', hbefore', rfl⟩
    rw [hr] at hr'
    cases hr'
    rw [hids] at hids'
    cases hids'
    rw [hpartners] at hpartners'
    cases hpartners'
    rw [Bool.eq_iff_iff.mpr (hbefore'.trans hbefore.symm)]
    exact ⟨⟨hneeds, hcheck⟩, rfl⟩
  · rintro ⟨⟨hneeds, hcheck⟩, rfl⟩
    exact ⟨r, ids, partners, before, hr, hneeds, hcheck, hids, hpartners, hbefore, rfl⟩

theorem Arranged.scan?_judged (h : p.Arranged) (s : Session) (elision : Bool) {c : ConstraintId}
    (before os : List Occurrence) (hscan : p.activeOf c = before ++ os) :
    ∃ vs, p.scan? s elision (before.any Occurrence.stored) os = some vs ∧
      ∀ id v, (id, v) ∈ vs ↔ ∃ o ∈ os, o.id = id ∧ p.Judged s elision o v := by
  -- `before` is what the scan has passed, and its flag says whether any of that is stored
  induction os generalizing before with
  | nil => exact ⟨[], rfl, by simp⟩
  | cons o os ih =>
    have hactive : o ∈ p.active := (mem_activeOf.mp (by rw [hscan]; simp)).1
    have ho := (mem_active.mp hactive).1
    obtain ⟨r, hr, _⟩ := h.placed o ho
    obtain ⟨ids, partners, hids, hpartners, _⟩ := h.headPartners_eq ho
    have hjudged : ∀ v, p.Judged s elision o v ↔ _ := fun v =>
      judged_iff hr hids hpartners (h.storedBefore_iff hscan)
    obtain ⟨vs, hvs, hrest⟩ := ih (before ++ [o]) (by rw [hscan, List.append_assoc]; rfl)
    rw [List.any_append, List.any_cons, List.any_nil, Bool.or_false] at hvs
    by_cases hcheck : (r.needsHistory && o.checkHistory) = true
    · refine ⟨_,
        by simp only [scan?, hr, hids, hpartners, hvs, hcheck, Option.bind_eq_bind,
        Option.bind_some]; rfl, ?_⟩
      intro id v
      rw [List.exists_mem_cons_iff, ← hrest id v, hjudged, List.mem_cons, Prod.mk.injEq]
      simp only [hcheck, true_and, eq_comm]
    · refine ⟨vs,
        by simp only [scan?, hr, hids, hpartners, hvs, hcheck, Option.bind_eq_bind,
        Option.bind_some]; rfl, ?_⟩
      intro id v
      rw [List.exists_mem_cons_iff, ← hrest id v, hjudged]
      simp [hcheck]

/-- The verdicts are given on every arranged program, one for each active occurrence that checks
a history which its rule keeps. -/
theorem Arranged.verdicts?_judged (h : p.Arranged) (s : Session) (elision : Bool) :
    ∃ vs, p.verdicts? s elision = some vs ∧
      ∀ id v, (id, v) ∈ vs ↔ ∃ o ∈ p.active, o.id = id ∧ p.Judged s elision o v := by
  have hone : ∀ k : Constraint, ∃ vs, p.scan? s elision false (p.activeOf k.id) = some vs ∧
      ∀ id v, (id, v) ∈ vs ↔ ∃ o ∈ p.activeOf k.id, o.id = id ∧ p.Judged s elision o v :=
    fun k => h.scan?_judged s elision [] (p.activeOf k.id) rfl
  have hsome : ∀ k ∈ p.constraints, ∃ vs,
      p.scan? s elision false (p.activeOf k.id) = some vs := fun k _ =>
    (hone k).imp fun _ hvs => hvs.1
  obtain ⟨vss, hvss, _, hmem⟩ := exists_mapM_eq_some hsome
  refine ⟨vss.flatten, by rw [verdicts?, hvss, Option.map_some], fun id v => ?_⟩
  constructor
  · intro hv
    obtain ⟨vs, hvs, hv⟩ := List.mem_flatten.mp hv
    obtain ⟨k, _, hscan⟩ := (hmem vs).mp hvs
    obtain ⟨vs', hscan', hiff⟩ := hone k
    rw [hscan] at hscan'
    cases hscan'
    obtain ⟨o, ho, hid, hjudged⟩ := (hiff id v).mp hv
    exact ⟨o, (mem_activeOf.mp ho).1, hid, hjudged⟩
  · rintro ⟨o, ho, hid, hjudged⟩
    obtain ⟨k, hk, _⟩ := h.declared o (mem_active.mp ho).1
    obtain ⟨vs, hscan, hiff⟩ := hone k
    have hok : o ∈ p.activeOf k.id := mem_activeOf.mpr ⟨ho, (h.id_of_constraint? hk).symm⟩
    have hv := (hiff id v).mpr ⟨o, hok, hid, hjudged⟩
    exact List.mem_flatten.mpr ⟨vs, (hmem vs).mpr ⟨k, List.mem_of_getElem? hk, hscan⟩, hv⟩

theorem head_of_isActive {o : Occurrence} (h : o.isActive = true) : o.head = .positive := by
  simp only [Occurrence.isActive, Bool.and_eq_true, decide_eq_true_eq] at h
  exact h.2

theorem spared_iff (h : p.WellFormed) {s : Session} (hs : p.KnownTo s) (elision : Bool)
    {o : Occurrence} (ho : o ∈ p.active) :
    p.Spared elision o ↔ ∃ v, p.Judged s elision o v ∧ v.needed = false := by
  classical
  obtain ⟨hmem, ha⟩ := mem_active.mp ho
  obtain ⟨r, hr, _⟩ := h.placed o hmem
  obtain ⟨ids, partners, hids, hpartners, hmap, hpartner⟩ := h.headPartners_eq hmem
  have hlen : r.head.length = partners.length + 1 := by
    rw [headPartners?, hr, Option.map_some] at hids
    rw [length_head_eq h hmem (head_of_isActive ha) hr,
      ← List.length_map (f := Occurrence.id), hmap, ← Option.some.inj hids]
  have hbefore : decide (p.StoredBefore o) = true ↔ p.StoredBefore o := decide_eq_true_iff
  have hverdict := hs.verdict_iff hpartner hlen hbefore elision
  have hjudged : ∀ v, p.Judged s elision o v ↔ _ := fun v => judged_iff hr hids hpartners hbefore
  constructor
  · rintro ⟨r', hr', hneeds, hcheck, hnot⟩
    rw [hr] at hr'
    cases hr'
    refine ⟨_, (hjudged _).mpr ⟨by rw [hneeds, hcheck]; rfl, rfl⟩, ?_⟩
    rw [Bool.eq_false_iff, ne_eq, hverdict]
    exact hnot
  · rintro ⟨v, hv, hneeded⟩
    obtain ⟨hboth, rfl⟩ := (hjudged v).mp hv
    rw [Bool.and_eq_true] at hboth
    refine ⟨r, hr, hboth.1, hboth.2, fun hrep => ?_⟩
    rw [hverdict.mpr hrep] at hneeded
    cases hneeded

end Scan

section Marks

theorem WellFormed.exists_head (h : p.WellFormed) {r : Rule} (hr : r ∈ p.rules)
    {P : Occurrence → Prop} :
    (∃ id ∈ r.head, ∃ o, p.occurrence? id = some o ∧ P o) ↔
      ∃ o ∈ p.occurrences, o.rule = r.id ∧ o.head = .positive ∧ P o := by
  constructor
  · rintro ⟨id, hid, o, ho, hP⟩
    have hmem : o ∈ p.occurrences := mem_occurrences_iff.mpr ⟨id, ho⟩
    rw [← h.id_of_occurrence? ho] at hid
    obtain ⟨hrule, hpos⟩ := (h.mem_head hmem hr).mp hid
    exact ⟨o, hmem, hrule, hpos, hP⟩
  · rintro ⟨o, ho, hrule, hpos, hP⟩
    exact ⟨o.id, (h.mem_head ho hr).mpr ⟨hrule, hpos⟩, o, h.occurrence?_id ho, hP⟩

theorem dismissed_iff (h : p.WellFormed) {r : Rule} (hr : r ∈ p.rules) :
    (r.isSpent || p.isHarmless r) = true ↔ r.needsHistory = true ∧ ¬p.KeepsHistory r := by
  have hnever : p.headNeverStored r = true ↔
      ∃ o ∈ p.occurrences, o.rule = r.id ∧ o.head = .positive ∧
        p.mayBeStored o.constraint = false := by
    rw [← h.exists_head hr]
    simp [headNeverStored, Option.any_eq_true]
  have hstored : (∀ o ∈ p.occurrences, o.rule = r.id → o.head = .positive →
      p.mayBeStored o.constraint = true) ↔
      ¬p.headNeverStored r = true := by
    rw [hnever]
    constructor
    · rintro hall ⟨o, ho, hrule, hpos, hfalse⟩
      rw [hall o ho hrule hpos] at hfalse
      cases hfalse
    · intro hnone o ho hrule hpos
      by_contra hfalse
      exact hnone ⟨o, ho, hrule, hpos, Bool.eq_false_iff.mpr hfalse⟩
  rw [KeepsHistory, hstored, Rule.isSpent, isHarmless]
  cases r.needsHistory <;> cases r.isPropagation <;> cases p.headNeverStored r <;> simp

theorem isUnchecked_iff (h : p.WellFormed) {r : Rule} (hr : r ∈ p.rules) : p.isUnchecked r = true ↔
    r.needsHistory = true ∧ r.isPropagation = true ∧ ∀ o ∈ p.active, o.rule = r.id →
      o.checkHistory = false := by
  have hall :
      (r.head.all fun id => (p.occurrence? id).all fun o => !o.isActive || !o.checkHistory) = true ↔
      ¬∃ id ∈ r.head, ∃ o, p.occurrence? id = some o ∧ o.isActive = true ∧
        o.checkHistory = true := by
    simp only [List.all_eq_true, Option.all_eq_true, not_exists, not_and]
    refine forall₄_congr fun id _ o _ => ?_
    cases o.isActive <;> cases o.checkHistory <;> simp
  rw [isUnchecked, Bool.and_eq_true, Bool.and_eq_true, hall, h.exists_head hr, and_assoc]
  refine and_congr_right fun _ => and_congr_right fun _ => ?_
  constructor
  · intro hnone o ho hrule
    obtain ⟨hmem, ha⟩ := mem_active.mp ho
    by_contra hcheck
    refine hnone ⟨o, hmem, hrule, ?_, ha, by simpa using hcheck⟩
    simp only [Occurrence.isActive, Bool.and_eq_true, decide_eq_true_eq] at ha
    exact ha.2
  · rintro hall ⟨o, ho, hrule, _, ha, hcheck⟩
    rw [hall o (mem_active.mpr ⟨ho, ha⟩) hrule] at hcheck
    cases hcheck

theorem dropHistory_rechecked (p : Program) (dropped : List Rule) :
    p.Rechecked (p.dropHistory dropped) where
  symbols_eq := rfl
  constraints_eq := rfl
  paths_eq := rfl
  rules_eq := by
    rw [dropHistory, List.map_map]
    apply List.map_congr_left
    intro r _
    rw [Function.comp_apply]
    split <;> rfl
  occurrences_eq := by
    rw [dropHistory, List.map_map]
    apply List.map_congr_left
    intro o _
    rw [Function.comp_apply]
    split <;> rfl

theorem clearChecks_rechecked (p : Program) (os : List OccurrenceId) :
    p.Rechecked (p.clearChecks os) where
  symbols_eq := rfl
  constraints_eq := rfl
  paths_eq := rfl
  rules_eq := rfl
  occurrences_eq := by
    rw [clearChecks, List.map_map]
    apply List.map_congr_left
    intro o _
    rw [Function.comp_apply]
    split <;> rfl

theorem freezeCategories_rechecked (p : Program) (reads : List (ConstraintId × CategoryId)) :
    p.Rechecked (p.freezeCategories reads) := by
  induction reads generalizing p with
  | nil => exact ⟨rfl, rfl, rfl, rfl, rfl⟩
  | cons cc reads ih =>
    have hone : p.Rechecked (p.modifyConstraint cc.1 fun c =>
        { c with categories := c.categories.freeze cc.2 }) :=
      ⟨rfl, map_modify_eq fun _ _ => rfl,
        map_modify_eq fun k _ => k.categories.paths_freeze cc.2, rfl, rfl⟩
    exact hone.trans (ih _)

theorem freezeCategories_marks (p : Program) (reads : List (ConstraintId × CategoryId)) :
    (p.freezeCategories reads).rules = p.rules ∧
      (p.freezeCategories reads).occurrences = p.occurrences := by
  induction reads generalizing p with
  | nil => exact ⟨rfl, rfl⟩
  | cons cc reads ih => exact ih _

theorem dropHistory_congr {dropped dropped' : List Rule} (h : ∀ r, r ∈ dropped ↔ r ∈ dropped') :
    p.dropHistory dropped = p.dropHistory dropped' := by
  have hids : ∀ id, id ∈ dropped.map Rule.id ↔ id ∈ dropped'.map Rule.id :=
    fun id => by simp only [List.mem_map, h]
  have hheads : ∀ id, id ∈ dropped.flatMap Rule.head ↔
      id ∈ dropped'.flatMap Rule.head := fun id => by
    simp only [List.mem_flatMap, h]
  simp only [dropHistory, hids, hheads]

theorem rule?_dropHistory (h : p.WellFormed) (f : Rule → Bool) {id : RuleId} {r : Rule}
    (hr : p.rule? id = some r) :
    (p.dropHistory (p.rules.filter f)).rule? id =
      some { r with needsHistory := r.needsHistory && !f r } := by
  have hmem : r ∈ p.rules := mem_rules_iff.mpr ⟨id, hr⟩
  have hiff : r.id ∈ (p.rules.filter f).map Rule.id ↔ f r = true := by
    simp only [List.mem_map, List.mem_filter]
    constructor
    · rintro ⟨r', ⟨hmem', hf⟩, he⟩
      have hsame := h.rule?_id hmem'
      rw [he, h.rule?_id hmem] at hsame
      cases hsame
      exact hf
    · intro hf
      exact ⟨r, ⟨hmem, hf⟩, rfl⟩
  simp only [rule?] at hr
  simp only [dropHistory, rule?, List.getElem?_map, hr, Option.map_some, hiff]
  cases hf : f r <;> simp

theorem occurrence?_dropHistory (h : p.WellFormed) (f : Rule → Bool) {id : OccurrenceId}
    {o : Occurrence} {r : Rule} (ho : p.occurrence? id = some o) (hr : p.rule? o.rule = some r) :
    (p.dropHistory (p.rules.filter f)).occurrence? id =
      some { o with checkHistory := o.checkHistory && !(decide (o.head = .positive) && f r) } := by
  have hmem : o ∈ p.occurrences := mem_occurrences_iff.mpr ⟨id, ho⟩
  have hiff : o.id ∈ (p.rules.filter f).flatMap Rule.head ↔
      (decide (o.head = .positive) && f r) = true := by
    simp only [List.mem_flatMap, List.mem_filter, Bool.and_eq_true, decide_eq_true_eq]
    constructor
    · rintro ⟨r', ⟨hmem', hf⟩, hid⟩
      obtain ⟨hrule, hpos⟩ := (h.mem_head hmem hmem').mp hid
      have hsame := h.rule?_id hmem'
      rw [← hrule, hr] at hsame
      cases hsame
      exact ⟨hpos, hf⟩
    · rintro ⟨hpos, hf⟩
      have hrmem : r ∈ p.rules := mem_rules_iff.mpr ⟨_, hr⟩
      exact ⟨r, ⟨hrmem, hf⟩, (h.mem_head hmem hrmem).mpr ⟨(h.id_of_rule? hr).symm, hpos⟩⟩
  simp only [occurrence?] at ho
  simp only [dropHistory, occurrence?, List.getElem?_map, ho, Option.map_some, hiff]
  cases hf : (decide (o.head = .positive) && f r) <;> simp

end Marks

/-- The rule keeps its history, and some active occurrence goes on checking it. -/
def Continues (p : Program) (elision : Bool) (r : Rule) : Prop :=
  p.KeepsHistory r ∧ ∃ o ∈ p.active, o.rule = r.id ∧ o.checkHistory = true ∧ p.MayRepeat elision r o

/-- `q` is `p` with history left to the rules in `K` alone, where the active occurrences check
it through which a firing may be repeated. -/
structure Remarked (elision : Bool) (K : Rule → Prop) (p q : Program) : Prop where
  rechecked : p.Rechecked q
  rule? : ∀ (id : RuleId) (r : Rule), p.rule? id = some r →
    ∃ needs, q.rule? id = some { r with needsHistory := needs } ∧
    (needs = true ↔ r.needsHistory = true ∧ K r)
  active : ∀ (id : OccurrenceId) (o : Occurrence) (r : Rule), p.occurrence? id = some o →
    p.rule? o.rule = some r →
    o.isActive = true → ∃ check, q.occurrence? id = some { o with checkHistory := check } ∧
      (check = true ↔ o.checkHistory = true ∧
        (r.needsHistory = true → p.KeepsHistory r ∧ p.MayRepeat elision r o))
  passive : ∀ (id : OccurrenceId) (o : Occurrence) (r : Rule), p.occurrence? id = some o →
    p.rule? o.rule = some r →
    o.isActive = false → ∃ check, q.occurrence? id = some { o with checkHistory := check } ∧
      (check = true ↔ o.checkHistory = true ∧ (r.needsHistory = true → o.head = .positive → K r))

theorem occurrence?_clearChecks (h : p.WellFormed) {elision : Bool} {spared : List OccurrenceId}
    (hspared : ∀ id, id ∈ spared ↔ ∃ o ∈ p.active, o.id = id ∧ p.Spared elision o)
    {id : OccurrenceId} {o : Occurrence} (ho : p.occurrence? id = some o) :
    ∃ check, (p.clearChecks spared).occurrence? id = some { o with checkHistory := check } ∧
      (check = true ↔ o.checkHistory = true ∧ ¬(o.isActive = true ∧ p.Spared elision o)) := by
  have hmem : o ∈ p.occurrences := mem_occurrences_iff.mpr ⟨id, ho⟩
  have hiff : o.id ∈ spared ↔ o.isActive = true ∧ p.Spared elision o := by
    rw [hspared]
    constructor
    · rintro ⟨u, hu, hid, hs⟩
      obtain ⟨hu, ha⟩ := mem_active.mp hu
      rw [← h.eq_of_id_eq hu hmem hid]
      exact ⟨ha, hs⟩
    · rintro ⟨ha, hs⟩
      exact ⟨o, mem_active.mpr ⟨hmem, ha⟩, rfl, hs⟩
  refine ⟨if o.id ∈ spared then false else o.checkHistory, ?_, ?_⟩
  · simp only [occurrence?] at ho
    simp only [clearChecks, occurrence?, List.getElem?_map, ho, Option.map_some]
    by_cases hin : o.id ∈ spared <;> simp [hin]
  · rw [← hiff]
    by_cases hin : o.id ∈ spared <;> simp [hin]

/-- History is dropped where a rule as a whole needs none. -/
def dismiss (p : Program) : Program :=
  p.dropHistory (p.rules.filter Rule.isSpent ++ p.rules.filter p.isHarmless)

/-- The checks that are not needed are dropped, and the categories that were read are frozen. -/
def spare (p : Program) (vs : List (OccurrenceId × Verdict)) : Program :=
  (p.clearChecks ((vs.filter fun v => !v.2.needed).map Prod.fst)).freezeCategories
    (vs.flatMap fun v => v.2.reads)

theorem dismiss_spec (h : p.WellFormed) : p.Rechecked p.dismiss ∧
    (∀ (id : RuleId) (r : Rule), p.rule? id = some r → ∃ needs,
      p.dismiss.rule? id = some { r with needsHistory := needs } ∧
        (needs = true ↔ r.needsHistory = true ∧ p.KeepsHistory r)) ∧
    ∀ (id : OccurrenceId) (o : Occurrence) (r : Rule), p.occurrence? id = some o →
      p.rule? o.rule = some r →
      ∃ check, p.dismiss.occurrence? id = some { o with checkHistory := check } ∧
        (check = true ↔ o.checkHistory = true ∧
          (r.needsHistory = true → o.head = .positive → p.KeepsHistory r)) := by
  have hsplit : ∀ r, r ∈ p.rules.filter Rule.isSpent ++ p.rules.filter p.isHarmless ↔
      r ∈ p.rules.filter fun r => r.isSpent || p.isHarmless r := fun r => by
    simp only [List.mem_append, List.mem_filter, Bool.or_eq_true, and_or_left]
  rw [dismiss, dropHistory_congr hsplit]
  refine ⟨dropHistory_rechecked _ _, fun id r hr => ?_, fun id o r ho hr => ?_⟩
  · refine ⟨_, rule?_dropHistory h _ hr, ?_⟩
    have hiff := dismissed_iff h (mem_rules_iff.mpr ⟨id, hr⟩)
    rw [Bool.and_eq_true, Bool.not_eq_true', ← Bool.not_eq_true, hiff]
    tauto
  · refine ⟨_, occurrence?_dropHistory h _ ho hr, ?_⟩
    have hiff := dismissed_iff h (mem_rules_iff.mpr ⟨_, hr⟩)
    rw [Bool.and_eq_true, Bool.not_eq_true', ← Bool.not_eq_true, Bool.and_eq_true,
      decide_eq_true_eq, hiff]
    tauto

theorem Arranged.elideHistory_eq (h : p.Arranged) {s : Session}
    (hs : p.observationSession? = some (.ok s)) (elision : Bool) :
    ∃ vs q, p.dismiss.verdicts? (s.rememberAll p.bodies) elision = some vs ∧
    p.dismiss.spare vs = q ∧ p.elideHistory elision = .done
      ⟨(vs.filter fun v => !v.2.needed).length, (p.rules.filter p.isHarmless).length +
        (q.rules.filter q.isUnchecked).length, (p.rules.filter p.isHarmless).length⟩
      (q.dropHistory (q.rules.filter q.isUnchecked)) := by
  have hdismiss : p.dismiss.Arranged :=
    h.of_sameShape (.of_bare_eq (dropHistory_rechecked p _).bare_eq)
  obtain ⟨vs, hvs, _⟩ := hdismiss.verdicts?_judged (s.rememberAll p.bodies) elision
  have hheads : p.headsResolve = true := by
    rw [headsResolve, List.all_eq_true]
    intro r hr
    obtain ⟨os, hos, _⟩ := h.head_eq hr
    simp [hos]
  refine ⟨vs, _, hvs, rfl, ?_⟩
  rw [dismiss] at hvs
  rw [elideHistory, hs]
  simp only [Outcome.withSession, hheads, Bool.not_true, Bool.false_eq_true, if_false, hvs,
    List.length_map]
  rfl

theorem elideHistory_eq (h : p.WellFormed) (elision : Bool) :
    ∃ s vs q, p.observationSession? = some (.ok s) ∧
    p.KnownTo (s.rememberAll p.bodies) ∧
      p.dismiss.verdicts? (s.rememberAll p.bodies) elision = some vs ∧
    p.dismiss.spare vs = q ∧ p.elideHistory elision = .done
      ⟨(vs.filter fun v => !v.2.needed).length, (p.rules.filter p.isHarmless).length +
        (q.rules.filter q.isUnchecked).length, (p.rules.filter p.isHarmless).length⟩
      (q.dropHistory (q.rules.filter q.isUnchecked)) := by
  obtain ⟨s, hs, hknown⟩ := observationSession?_known h
  obtain ⟨vs, q, hdone⟩ := h.toArranged.elideHistory_eq hs elision
  exact ⟨s, vs, q, hs, hknown.rememberAll p.bodies, hdone⟩

theorem scanned_spec (h : p.WellFormed) (elision : Bool) :
    ∃ q, p.Remarked elision p.KeepsHistory q ∧
    ∃ stats, p.elideHistory elision =
      .done stats (q.dropHistory (q.rules.filter q.isUnchecked)) := by
  obtain ⟨s, vs, q, _, hknown, hvs, hq, hdone⟩ := elideHistory_eq h elision
  obtain ⟨hre₁, hrule₁, hocc₁⟩ := dismiss_spec h
  have h₁ : p.dismiss.WellFormed := h.of_bare_eq hre₁.bare_eq
  have hknown₁ : p.dismiss.KnownTo (s.rememberAll p.bodies) := hknown.of_bare_eq hre₁.bare_eq
  have hspared : ∀ id, id ∈ (vs.filter fun v => !v.2.needed).map Prod.fst ↔
      ∃ o ∈ p.dismiss.active, o.id = id ∧ p.dismiss.Spared elision o := fun id => by
    obtain ⟨vs', hvs', hjudged⟩ := h₁.verdicts?_judged (s.rememberAll p.bodies) elision
    rw [hvs] at hvs'
    cases hvs'
    constructor
    · intro hid
      obtain ⟨⟨id, v⟩, hv, rfl⟩ := List.mem_map.mp hid
      obtain ⟨hv, hneeded⟩ := List.mem_filter.mp hv
      obtain ⟨o, ho, hoid, hj⟩ := (hjudged id v).mp hv
      exact ⟨o, ho, hoid, (spared_iff h₁ hknown₁ elision ho).mpr ⟨v, hj, by simpa using hneeded⟩⟩
    · rintro ⟨o, ho, hoid, hs⟩
      obtain ⟨v, hj, hneeded⟩ := (spared_iff h₁ hknown₁ elision ho).mp hs
      have hv := (hjudged id v).mpr ⟨o, ho, hoid, hj⟩
      exact List.mem_map.mpr ⟨(id, v), List.mem_filter.mpr ⟨hv, by simpa using hneeded⟩, rfl⟩
  have hmarks :=
    freezeCategories_marks (p.dismiss.clearChecks ((vs.filter fun v => !v.2.needed).map Prod.fst))
    (vs.flatMap fun v => v.2.reads)
  rw [← spare, hq] at hmarks
  have hre : p.Rechecked q :=
    hq ▸ (hre₁.trans (clearChecks_rechecked _ _)).trans (freezeCategories_rechecked _ _)
  refine ⟨q, ⟨hre, fun id r hr => ?_, fun id o r ho hr ha => ?_, fun id o r ho hr ha => ?_⟩, _,
    hdone⟩
  · obtain ⟨needs, hneeds, hn⟩ := hrule₁ id r hr
    exact ⟨needs, by rw [Program.rule?, hmarks.1]; exact hneeds, hn⟩
  · obtain ⟨check₁, ho₁, hc₁⟩ := hocc₁ id o r ho hr
    obtain ⟨needs, hr₁, hn⟩ := hrule₁ o.rule r hr
    obtain ⟨check, ho₂, hc⟩ := occurrence?_clearChecks h₁ hspared ho₁
    refine ⟨check, by rw [Program.occurrence?, hmarks.2]; exact ho₂, ?_⟩
    have hrepeat : p.dismiss.MayRepeat elision { r with needsHistory := needs }
        { o with checkHistory := check₁ } ↔
        p.MayRepeat elision r o := hre₁.mayRepeat_iff ho ho₁ rfl elision
    have hs : p.dismiss.Spared elision { o with checkHistory := check₁ } ↔
        needs = true ∧ check₁ = true ∧ ¬p.MayRepeat elision r o := by
      rw [← hrepeat, Spared]
      simp [hr₁]
    have hpos := head_of_isActive ha
    rw [hc, hs, hc₁, hn]
    constructor
    · rintro ⟨⟨hcheck, hkeep⟩, hnot⟩
      refine ⟨hcheck, fun hneeds => ⟨hkeep hneeds hpos, ?_⟩⟩
      by_contra hrep
      exact hnot ⟨ha, ⟨hneeds, hkeep hneeds hpos⟩, ⟨hcheck, hkeep⟩, hrep⟩
    · rintro ⟨hcheck, hkeep⟩
      refine ⟨⟨hcheck, fun hneeds _ => (hkeep hneeds).1⟩, ?_⟩
      rintro ⟨_, ⟨hneeds, _⟩, _, hrep⟩
      exact hrep (hkeep hneeds).2
  · obtain ⟨check₁, ho₁, hc₁⟩ := hocc₁ id o r ho hr
    obtain ⟨check, ho₂, hc⟩ := occurrence?_clearChecks h₁ hspared ho₁
    refine ⟨check, by rw [Program.occurrence?, hmarks.2]; exact ho₂, ?_⟩
    have hnot : ¬(({ o with checkHistory := check₁ } : Occurrence).isActive = true ∧
        p.dismiss.Spared elision { o with checkHistory := check₁ }) := fun hand => by
      rw [show ({ o with checkHistory := check₁ } : Occurrence).isActive = false from ha] at hand
      cases hand.1
    rw [hc, ← hc₁, and_iff_left hnot]

theorem Remarked.isUnchecked_iff {elision : Bool} (hq : p.Remarked elision p.KeepsHistory q)
    (h : p.WellFormed) {id : RuleId} {r r' : Rule} (hr : p.rule? id = some r)
    (hr' : q.rule? id = some r') :
    q.isUnchecked r' = true ↔ r.needsHistory = true ∧ p.KeepsHistory r ∧
      ¬p.Continues elision r := by
  have hqw : q.WellFormed := h.of_bare_eq hq.rechecked.bare_eq
  obtain ⟨needs, hneeds, hn⟩ := hq.rule? id r hr
  rw [hr'] at hneeds
  cases hneeds
  have hid : r.id = id := h.id_of_rule? hr
  rw [Program.isUnchecked_iff hqw (mem_rules_iff.mpr ⟨id, hr'⟩), hn, and_assoc]
  refine and_congr_right fun hneeds => and_congr_right fun hkeep => ?_
  constructor
  · rintro ⟨_, hall⟩ ⟨_, o, ho, hrule, hcheck, hrep⟩
    obtain ⟨hmem, ha⟩ := mem_active.mp ho
    have hro : p.rule? o.rule = some r := by rw [hrule, hid, hr]
    obtain ⟨check, ho', hc⟩ := hq.active o.id o r (h.occurrence?_id hmem) hro ha
    have htrue : check = true := hc.mpr ⟨hcheck, fun _ => ⟨hkeep, hrep⟩⟩
    have hfalse := hall _ (mem_active.mpr ⟨mem_occurrences_iff.mpr ⟨_, ho'⟩, ha⟩) hrule
    rw [show check = false from hfalse] at htrue
    cases htrue
  · intro hstop
    refine ⟨hkeep.1, fun o' ho' hrule => ?_⟩
    obtain ⟨hmem, ha⟩ := mem_active.mp ho'
    have hget := hqw.occurrence?_id hmem
    obtain ⟨check, ho⟩ := hq.rechecked.symm.occurrence? hget
    have hro : p.rule? o'.rule = some r := by rw [hrule, hid, hr]
    obtain ⟨check', hget', hc⟩ := hq.active o'.id _ r ho hro ha
    rw [hget] at hget'
    have hsame := congrArg Occurrence.checkHistory (Option.some.inj hget')
    by_contra htrue
    obtain ⟨hcheck, hrep⟩ := hc.mp (hsame.symm.trans (by simpa using htrue))
    exact hstop ⟨hkeep, _, mem_active.mpr ⟨mem_occurrences_iff.mpr ⟨_, ho⟩, ha⟩, hrule, hcheck,
      (hrep hneeds).2⟩

theorem elideHistory_remarked (h : p.WellFormed) (elision : Bool) :
    ∃ stats q, p.elideHistory elision = .done stats q ∧
      p.Remarked elision (p.Continues elision) q := by
  obtain ⟨q, hq, stats, hdone⟩ := scanned_spec h elision
  have hqw : q.WellFormed := h.of_bare_eq hq.rechecked.bare_eq
  refine ⟨stats, _, hdone, hq.rechecked.trans (dropHistory_rechecked _ _), fun id r hr => ?_,
    fun id o r ho hr ha => ?_, fun id o r ho hr ha => ?_⟩
  · obtain ⟨needs, hr', hn⟩ := hq.rule? id r hr
    have hfinal := rule?_dropHistory hqw q.isUnchecked hr'
    refine ⟨_, hfinal, ?_⟩
    rw [Bool.and_eq_true, Bool.not_eq_true', ← Bool.not_eq_true, hq.isUnchecked_iff h hr hr']
    constructor
    · rintro ⟨hneeds, hnot⟩
      obtain ⟨hneeds, hkeep⟩ := hn.mp hneeds
      refine ⟨hneeds, ?_⟩
      by_contra hstop
      exact hnot ⟨hneeds, hkeep, hstop⟩
    · rintro ⟨hneeds, hcont⟩
      exact ⟨hn.mpr ⟨hneeds, hcont.1⟩, fun hnot => hnot.2.2 hcont⟩
  · obtain ⟨check, ho', hc⟩ := hq.active id o r ho hr ha
    obtain ⟨needs, hr', hn⟩ := hq.rule? o.rule r hr
    have hfinal := occurrence?_dropHistory hqw q.isUnchecked ho' hr'
    refine ⟨_, hfinal, ?_⟩
    rw [Bool.and_eq_true, Bool.not_eq_true', ← Bool.not_eq_true, Bool.and_eq_true,
      hq.isUnchecked_iff h hr hr', ← hc, and_iff_left_iff_imp]
    rintro hcheck ⟨_, hneeds, hkeep, hstop⟩
    obtain ⟨hchecked, hrep⟩ := hc.mp hcheck
    refine hstop ⟨hkeep, o, mem_active.mpr ⟨mem_occurrences_iff.mpr ⟨id, ho⟩, ha⟩, ?_, hchecked,
      (hrep hneeds).2⟩
    exact (h.id_of_rule? hr).symm
  · obtain ⟨check, ho', hc⟩ := hq.passive id o r ho hr ha
    obtain ⟨needs, hr', hn⟩ := hq.rule? o.rule r hr
    have hfinal := occurrence?_dropHistory hqw q.isUnchecked ho' hr'
    refine ⟨_, hfinal, ?_⟩
    rw [Bool.and_eq_true, Bool.not_eq_true', ← Bool.not_eq_true, Bool.and_eq_true,
      hq.isUnchecked_iff h hr hr', hc, decide_eq_true_eq]
    constructor
    · rintro ⟨⟨hchecked, hkeep⟩, hnot⟩
      refine ⟨hchecked, fun hneeds hpos => ?_⟩
      by_contra hstop
      exact hnot ⟨hpos, hneeds, hkeep hneeds hpos, hstop⟩
    · rintro ⟨hchecked, hcont⟩
      refine ⟨⟨hchecked, fun hneeds hpos => (hcont hneeds hpos).1⟩, ?_⟩
      rintro ⟨hpos, hneeds, _, hstop⟩
      exact hstop (hcont hneeds hpos)

theorem remarked_of_done (h : p.WellFormed) {elision : Bool} {stats : HistoryStats}
    (hdone : p.elideHistory elision = .done stats q) :
    p.Remarked elision (p.Continues elision) q := by
  obtain ⟨_, _, hdone', hq⟩ := elideHistory_remarked h elision
  rw [hdone] at hdone'
  obtain ⟨_, rfl⟩ := Outcome.done.inj hdone'
  exact hq

/-- After whichever of the passes before it, history leaves the check of an active occurrence
exactly where a firing through the occurrence may be repeated. -/
theorem elideHistory_exact (steps : List BuildStep) (passes : List Preparation) (elision : Bool) :
    ∃ p stats q, (build steps).prepare passes = .done () p ∧
      p.elideHistory elision = .done stats q ∧
      ∀ o ∈ p.active, ∃ r o', p.rule? o.rule = some r ∧ q.occurrence? o.id = some o' ∧
        (o'.checkHistory = true ↔ p.KeepsHistory r ∧ p.MayRepeat elision r o) := by
  obtain ⟨p, hprepare, hp, _⟩ := prepare_ready (build_ready steps) passes
  obtain ⟨stats, q, hdone, hq⟩ := elideHistory_remarked hp.wellFormed elision
  refine ⟨p, stats, q, hprepare, hdone, fun o ho => ?_⟩
  obtain ⟨hmem, ha⟩ := mem_active.mp ho
  obtain ⟨r, hr, _⟩ := hp.wellFormed.placed o hmem
  obtain ⟨check, ho', hc⟩ := hq.active o.id o r (hp.wellFormed.occurrence?_id hmem) hr ha
  refine ⟨r, _, hr, ho', hc.trans ⟨fun hkept => ?_, fun hboth => ?_⟩⟩
  · exact hkept.2 (hp.kept r (mem_rules_iff.mpr ⟨_, hr⟩))
  · exact ⟨hp.checked o hmem, fun _ => hboth⟩

end Program

end ConstraintRules
