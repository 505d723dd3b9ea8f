import ConstraintRules.Proofs.Annotations
import ConstraintRules.Proofs.JoinOrder
import ConstraintRules.Proofs.RecursionExact

/-! History marks stay in step: a rule keeps its history exactly if one of its
active occurrences checks it. -/

namespace ConstraintRules

namespace Program

variable {p q : Program} {elision : Bool} {K : Rule → Prop} {x : Part}

instance (p : Program) (r : Rule) : Decidable (p.KeepsHistory r) :=
  inferInstanceAs (Decidable (_ ∧ _ ∧ ¬_))

/-- A rule without history has no check in its positive head, and negative
heads are as they were built. -/
structure InStep (p : Program) : Prop where
  unchecked : ∀ r ∈ p.rules, r.needsHistory = false →
    ∀ o ∈ p.occurrences, o.rule = r.id → o.head = .positive → o.checkHistory = false
  negative : ∀ o ∈ p.occurrences, o.head ≠ .positive → o.checkHistory = true

/-- In step, and every history that is kept is that of a propagation rule and
checked by an active occurrence. -/
structure Settled (p : Program) : Prop extends InStep p where
  needsHistory_iff : ∀ r ∈ p.rules,
    (r.needsHistory = true ↔ ∃ o ∈ p.active, o.rule = r.id ∧ o.checkHistory = true)
  propagation : ∀ r ∈ p.rules, r.needsHistory = true → r.isPropagation = true

theorem Ready.inStep (h : p.Ready) : p.InStep where
  unchecked r hr hfalse := by
    rw [h.kept r hr] at hfalse
    cases hfalse
  negative o ho _ := h.checked o ho

section Marks

theorem AnnotatedBy.exists_rule (h : p.AnnotatedBy x q) (hx : x ≠ .history) {r' : Rule}
    (hr' : r' ∈ q.rules) :
    ∃ r ∈ p.rules, r.id = r'.id ∧ r.needsHistory = r'.needsHistory := by
  obtain ⟨r, hr, hrr'⟩ := exists_mem_of_forall₂ h.rules hr'
  refine ⟨r, hr, ?_⟩
  cases x with
  | history => exact absurd rfl hx
  | joins =>
    obtain ⟨_, rfl, _⟩ := hrr'
    exact ⟨rfl, rfl⟩
  | lookups | storage | removees | recursion =>
    rw [show r' = r from hrr']
    exact ⟨rfl, rfl⟩

theorem AnnotatedBy.exists_occurrence (h : p.AnnotatedBy x q) (hx : x ≠ .history) {o' : Occurrence}
    (ho' : o' ∈ q.occurrences) :
    ∃ o ∈ p.occurrences, o.rule = o'.rule ∧ o.head = o'.head ∧
      o.checkHistory = o'.checkHistory := by
  obtain ⟨o, ho, hoo'⟩ := exists_mem_of_forall₂ h.occurrences ho'
  refine ⟨o, ho, ?_⟩
  cases x with
  | history => exact absurd rfl hx
  | lookups | storage =>
    obtain ⟨_, rfl, _⟩ := hoo'
    exact ⟨rfl, rfl, rfl⟩
  | joins | removees | recursion =>
    rw [show o' = o from hoo']
    exact ⟨rfl, rfl, rfl⟩

theorem InStep.annotatedBy (h : p.InStep) (hpq : p.AnnotatedBy x q) (hx : x ≠ .history) :
    q.InStep where
  unchecked r' hr' hfalse o' ho' hrule hpos := by
    obtain ⟨r, hr, hid, hneeds⟩ := hpq.exists_rule hx hr'
    obtain ⟨o, ho, horule, hohead, hcheck⟩ := hpq.exists_occurrence hx ho'
    rw [← hcheck]
    exact h.unchecked r hr (hneeds.trans hfalse) o ho (horule.trans (hrule.trans hid.symm))
      (hohead.trans hpos)
  negative o' ho' hneg := by
    obtain ⟨o, ho, _, hohead, hcheck⟩ := hpq.exists_occurrence hx ho'
    rw [← hcheck]
    exact h.negative o ho (hohead ▸ hneg)

theorem Remarked.exists_rule (hq : p.Remarked elision K q) (hp : p.WellFormed) {r' : Rule}
    (hr' : r' ∈ q.rules) :
    ∃ r, p.rule? r'.id = some r ∧ r'.isPropagation = r.isPropagation ∧
      (r'.needsHistory = true ↔ r.needsHistory = true ∧ K r) := by
  have hget := (hp.of_bare_eq hq.rechecked.bare_eq).rule?_id hr'
  obtain ⟨needs, hr⟩ := hq.rechecked.symm.rule? hget
  obtain ⟨needs', hget', hiff⟩ := hq.rule? _ _ hr
  rw [hget] at hget'
  have hneeds : r'.needsHistory = needs' := congrArg Rule.needsHistory (Option.some.inj hget')
  exact ⟨_, hr, rfl, hneeds ▸ hiff⟩

theorem Remarked.exists_occurrence (hq : p.Remarked elision K q) (hp : p.WellFormed)
    {o' : Occurrence} (ho' : o' ∈ q.occurrences) :
    ∃ o ∈ p.occurrences, ∃ r, p.rule? o.rule = some r ∧ o.rule = o'.rule ∧
      o.head = o'.head ∧ o.isActive = o'.isActive ∧
      (o'.isActive = true → (o'.checkHistory = true ↔ o.checkHistory = true ∧
        (r.needsHistory = true → p.KeepsHistory r ∧ p.MayRepeat elision r o))) ∧
      (o'.isActive = false → (o'.checkHistory = true ↔ o.checkHistory = true ∧
        (r.needsHistory = true → o.head = .positive → K r))) := by
  have hget := (hp.of_bare_eq hq.rechecked.bare_eq).occurrence?_id ho'
  obtain ⟨check, ho⟩ := hq.rechecked.symm.occurrence? hget
  have hmem := mem_occurrences_iff.mpr ⟨_, ho⟩
  obtain ⟨r, hr, _⟩ := hp.placed _ hmem
  refine ⟨_, hmem, r, hr, rfl, rfl, rfl, fun ha => ?_, fun ha => ?_⟩
  · obtain ⟨check', hget', hiff⟩ := hq.active _ _ r ho hr ha
    rw [hget] at hget'
    have hcheck : o'.checkHistory = check' :=
      congrArg Occurrence.checkHistory (Option.some.inj hget')
    exact hcheck ▸ hiff
  · obtain ⟨check', hget', hiff⟩ := hq.passive _ _ r ho hr ha
    rw [hget] at hget'
    have hcheck : o'.checkHistory = check' :=
      congrArg Occurrence.checkHistory (Option.some.inj hget')
    exact hcheck ▸ hiff

end Marks

theorem InStep.needsHistory_of_check (h : p.InStep) {r : Rule} (hr : r ∈ p.rules) {o : Occurrence}
    (ho : o ∈ p.occurrences) (hrule : o.rule = r.id) (hpos : o.head = .positive)
    (hcheck : o.checkHistory = true) :
    r.needsHistory = true := by
  by_contra hno
  have hnone := h.unchecked r hr (Bool.eq_false_iff.mpr hno) o ho hrule hpos
  rw [hcheck] at hnone
  cases hnone

theorem Remarked.needsHistory_of_check (hq : p.Remarked elision (p.Continues elision) q)
    (hp : p.WellFormed) (h : p.InStep) {r' : Rule} (hr' : r' ∈ q.rules) {o' : Occurrence}
    (ho' : o' ∈ q.occurrences) (hrule : o'.rule = r'.id) (hpos : o'.head = .positive)
    (hcheck : o'.checkHistory = true) :
    r'.needsHistory = true := by
  obtain ⟨r, hr, _, hneeds⟩ := hq.exists_rule hp hr'
  obtain ⟨o, ho, s, hs, horule, hohead, hactive, hchecked, hpassive⟩ := hq.exists_occurrence hp ho'
  rw [horule, hrule, hr] at hs
  cases hs
  have hid : o.rule = r.id := (horule.trans hrule).trans (hp.id_of_rule? hr).symm
  have hkept : o.checkHistory = true → r.needsHistory = true :=
    h.needsHistory_of_check (mem_rules_iff.mpr ⟨_, hr⟩) ho hid (hohead.trans hpos)
  rw [hneeds]
  cases ha : o'.isActive with
  | true =>
    obtain ⟨htrue, hrepeats⟩ := (hchecked ha).mp hcheck
    obtain ⟨hkeeps, hrepeat⟩ := hrepeats (hkept htrue)
    exact ⟨hkept htrue, hkeeps, o, mem_active.mpr ⟨ho, hactive.trans ha⟩, hid, htrue, hrepeat⟩
  | false =>
    obtain ⟨htrue, hcontinues⟩ := (hpassive ha).mp hcheck
    exact ⟨hkept htrue, hcontinues (hkept htrue) (hohead.trans hpos)⟩

theorem Remarked.settled (hq : p.Remarked elision (p.Continues elision) q) (hp : p.WellFormed)
    (h : p.InStep) :
    q.Settled where
  unchecked r' hr' hfalse o' ho' hrule hpos := by
    by_contra hcheck
    rw [hq.needsHistory_of_check hp h hr' ho' hrule hpos (by simpa using hcheck)] at hfalse
    cases hfalse
  negative o' ho' hneg := by
    obtain ⟨o, ho, _, _, _, hohead, _, _, hpassive⟩ := hq.exists_occurrence hp ho'
    have ha : o'.isActive = false := Bool.eq_false_iff.mpr fun ha => hneg (head_of_isActive ha)
    exact (hpassive ha).mpr ⟨h.negative o ho (hohead ▸ hneg),
      fun _ hpos => absurd (hohead ▸ hpos) hneg⟩
  needsHistory_iff r' hr' := by
    constructor
    · intro htrue
      obtain ⟨r, hr, _, hneeds⟩ := hq.exists_rule hp hr'
      obtain ⟨_, hkeeps, o, ho, hrule, hcheck, hrepeat⟩ := hneeds.mp htrue
      obtain ⟨hmem, ha⟩ := mem_active.mp ho
      have hrid := hp.id_of_rule? hr
      obtain ⟨check, hget, hiff⟩ :=
        hq.active o.id o r (hp.occurrence?_id hmem) (hrule ▸ hrid ▸ hr) ha
      exact ⟨_, mem_active.mpr ⟨mem_occurrences_iff.mpr ⟨_, hget⟩, ha⟩, hrule.trans hrid,
        hiff.mpr ⟨hcheck, fun _ => ⟨hkeeps, hrepeat⟩⟩⟩
    · rintro ⟨o', ho', hrule, hcheck⟩
      obtain ⟨hmem, ha⟩ := mem_active.mp ho'
      exact hq.needsHistory_of_check hp h hr' hmem hrule (head_of_isActive ha) hcheck
  propagation r' hr' htrue := by
    obtain ⟨r, _, hkind, hneeds⟩ := hq.exists_rule hp hr'
    exact hkind.trans (hneeds.mp htrue).2.1.1

/-- One pass keeps the marks in step, whichever it is and whether it is done or fails. -/
theorem InStep.run (h : p.InStep) (hp : p.WellFormed) (y : Pass) :
    ∃ q, (y.run p).program? = some q ∧ q.WellFormed ∧ q.InStep := by
  cases y with
  | history elision =>
    obtain ⟨_, q, hdone, hq⟩ := elideHistory_remarked hp elision
    exact ⟨q, by rw [Pass.run, hdone]; rfl, hp.of_bare_eq hq.rechecked.bare_eq,
      (hq.settled hp h).toInStep⟩
  | prepare y =>
    obtain ⟨q, hrun, hq⟩ := hp.toArranged.annotatedBy_run (.prepare y)
    exact ⟨q, hrun, hp.of_bare_eq hq.bare_eq, h.annotatedBy hq y.part_ne_history⟩

theorem InStep.after? (h : p.InStep) (hp : p.WellFormed) (ys : List Pass) :
    ∃ q, p.after? ys = some q ∧ q.WellFormed ∧ q.InStep := by
  induction ys generalizing p with
  | nil => exact ⟨p, rfl, hp, h⟩
  | cons y ys ih =>
    obtain ⟨q, hrun, hq, hin⟩ := h.run hp y
    obtain ⟨t, hrest, ht⟩ := ih hin hq
    refine ⟨t, ?_, ht⟩
    rw [Program.after?, List.foldlM_cons, hrun]
    exact hrest

section Counts

/-- A propagation rule that kept a history and has none in `q`. -/
def deprives (q : Program) (r : Rule) : Bool :=
  r.isPropagation && r.needsHistory && (q.rule? r.id).any fun r' => !r'.needsHistory

theorem isHarmless_iff (h : p.WellFormed) {r : Rule} (hr : r ∈ p.rules) :
    p.isHarmless r = true ↔ r.isPropagation = true ∧ r.needsHistory = true ∧ ¬p.KeepsHistory r := by
  have hiff := dismissed_iff h hr
  rw [Rule.isSpent] at hiff
  constructor
  · intro hharmless
    obtain ⟨hneeds, hno⟩ := hiff.mp (by rw [hharmless, Bool.or_true])
    simp only [isHarmless, Bool.and_eq_true] at hharmless
    exact ⟨hharmless.1.2, hneeds, hno⟩
  · rintro ⟨hkind, hneeds, hno⟩
    simpa [hkind] using hiff.mpr ⟨hneeds, hno⟩

/-- A rule loses its history at once if it is harmless as a whole, and else when its active
occurrences no longer check it. -/
theorem deprives_cases (h : p.WellFormed) {r : Rule} (hr : r ∈ p.rules) {u : Program}
    (hu : u.WellFormed) (hrules : u.rules = p.dismiss.rules)
    (hq : u.dropHistory (u.rules.filter u.isUnchecked) = q) :
    p.isHarmless r = (q.deprives r && !decide (p.KeepsHistory r)) ∧
      ∃ r', u.rule? r.id = some r' ∧ u.isUnchecked r' =
        (q.deprives r && decide (p.KeepsHistory r)) := by
  obtain ⟨_, hdismiss, _⟩ := dismiss_spec h
  obtain ⟨needs, hget, hneeds⟩ := hdismiss r.id r (h.rule?_id hr)
  rw [Program.rule?, ← hrules] at hget
  have hfinal := rule?_dropHistory hu u.isUnchecked hget
  have hharmless := isHarmless_iff h hr
  have hdeprives : q.deprives r = (r.isPropagation && r.needsHistory &&
      !(needs && !u.isUnchecked { r with needsHistory := needs })) := by
    rw [deprives, ← hq, hfinal]
    rfl
  cases needs with
  | true =>
    obtain ⟨hkept, hkeeps⟩ := hneeds.mp rfl
    have hlate : q.deprives r = u.isUnchecked { r with needsHistory := true } := by
      rw [hdeprives, hkept, hkeeps.1, Bool.true_and, Bool.true_and, Bool.true_and, Bool.not_not]
    refine ⟨?_, _, hget, ?_⟩
    · rw [Bool.eq_iff_iff, hharmless]
      simp [hkeeps]
    · simp [hlate, hkeeps]
  | false =>
    have hno : r.needsHistory = true → ¬p.KeepsHistory r := fun hkept hkeeps =>
      Bool.noConfusion (hneeds.mpr ⟨hkept, hkeeps⟩)
    refine ⟨?_, _, hget, ?_⟩
    · rw [Bool.eq_iff_iff, hharmless, hdeprives]
      simp [and_assoc]
    · rw [hdeprives, isUnchecked]
      simpa using fun _ => hno

/-- The counters of the pass are the numbers of rules that it deprives of their history, and of
those among them that are harmless as a whole. -/
theorem elideHistory_counts (h : p.WellFormed) {stats : HistoryStats}
    (hdone : p.elideHistory elision = .done stats q) :
    stats.rules = p.rules.countP q.deprives ∧
      stats.rulesAtOnce = p.rules.countP fun r => q.deprives r && !decide (p.KeepsHistory r) := by
  obtain ⟨_, vs, u, _, _, _, hu, hdone'⟩ := elideHistory_eq h elision
  rw [hdone] at hdone'
  obtain ⟨rfl, hq⟩ := Outcome.done.inj hdone'
  have hscan : p.dismiss.Rechecked u :=
    hu ▸ (clearChecks_rechecked _ _).trans (freezeCategories_rechecked _ _)
  have hrules : u.rules = p.dismiss.rules := hu ▸ (freezeCategories_marks _ _).1
  have hrechecked : p.Rechecked u := (dismiss_spec h).1.trans hscan
  have hcases :=
    fun r hr => deprives_cases (r := r) h hr (h.of_bare_eq hrechecked.bare_eq) hrules hq.symm
  have hatOnce : p.rules.countP p.isHarmless = p.rules.countP fun r => q.deprives r &&
      !decide (p.KeepsHistory r) :=
    List.countP_congr fun r hr => by rw [(hcases r hr).1]
  -- the rules of `u` are those of `p` place by place, apart from their marks
  have hlate : u.rules.map u.isUnchecked = p.rules.map fun r => q.deprives r &&
      decide (p.KeepsHistory r) := by
    have hlength : u.rules.length = p.rules.length := by
      simpa using congrArg List.length hrechecked.rules_eq
    refine List.ext_getElem (by simpa using hlength) fun i _ hi => ?_
    rw [List.length_map] at hi
    obtain ⟨r', hget, hunchecked⟩ := (hcases _ (List.getElem_mem hi)).2
    rw [h.rule_id i _ (List.getElem?_eq_getElem hi), Program.rule?, List.getElem?_eq_some_iff]
      at hget
    obtain ⟨_, rfl⟩ := hget
    rw [List.getElem_map, List.getElem_map]
    exact hunchecked
  have hcount : u.rules.countP u.isUnchecked = p.rules.countP fun r => q.deprives r &&
      decide (p.KeepsHistory r) := by
    simpa only [List.countP_map, Function.comp_def, id] using congrArg (List.countP id) hlate
  simp only [← List.countP_eq_length_filter]
  refine ⟨?_, hatOnce⟩
  rw [hatOnce, hcount, countP_and_not_add]

/-- On whatever passes have made of a built program, history leaves a rule its history exactly
if one of its active occurrences checks it. -/
theorem elideHistory_in_step (steps : List BuildStep) (ys : List Pass) (elision : Bool) :
    ∃ p stats q, (build steps).after? ys = some p ∧ p.elideHistory elision = .done stats q ∧
      (∀ r ∈ q.rules,
        (r.needsHistory = true ↔ ∃ o ∈ q.active, o.rule = r.id ∧ o.checkHistory = true) ∧
        (r.needsHistory = false →
          ∀ o ∈ q.occurrences, o.rule = r.id → o.head = .positive → o.checkHistory = false) ∧
        (r.needsHistory = true → r.isPropagation = true)) ∧
      (∀ o ∈ q.occurrences, o.head ≠ .positive → o.checkHistory = true) ∧
      stats.rules = p.rules.countP q.deprives ∧
      stats.rulesAtOnce = p.rules.countP fun r => q.deprives r && !decide (p.KeepsHistory r) := by
  obtain ⟨p, hp, hw, hin⟩ := (build_ready steps).inStep.after? (build_ready steps).wellFormed ys
  obtain ⟨stats, q, hdone, hq⟩ := elideHistory_remarked hw elision
  have hs := hq.settled hw hin
  exact ⟨p, stats, q, hp, hdone,
    fun r hr => ⟨hs.needsHistory_iff r hr, hs.unchecked r hr, hs.propagation r hr⟩, hs.negative,
    elideHistory_counts hw hdone⟩

end Counts

end Program

end ConstraintRules
