import ConstraintRules.Proofs.Growth
import ConstraintRules.Proofs.Indexing
import ConstraintRules.Pass.PropagationHistory

/-! When a firing may be repeated, said of the program and its marks. The verdict
on an active occurrence decides just this. -/

namespace ConstraintRules

open Activation

namespace Program

def HeadPartner (p : Program) (o q : Occurrence) : Prop :=
  q ∈ p.occurrences ∧ q.rule = o.rule ∧ q.head = .positive ∧ q.id ≠ o.id

/-- An earlier active occurrence of the same constraint has its instance stored. -/
def StoredBefore (p : Program) (o : Occurrence) : Prop :=
  ∃ u ∈ p.active, u.constraint = o.constraint ∧ u.id.index < o.id.index ∧ u.stored = true

/-- The lookup for the partner has a category whose path finds at most one instance. -/
def FindsOne (p : Program) (o q : Occurrence) : Prop :=
  ∃ l k path, o.lookup? q.id = some l ∧ p.constraint? q.constraint = some k ∧
    k.categories.paths[l.category.index]? = some path ∧ path.isSingleton q.arity = true

def Reactivates (p : Program) (r : RuleId) (c : ConstraintId) : Prop :=
  p.Reactive c ∧ p.ReachesTrigger r

/-- The rule is a propagation rule, every constraint of its positive head may be stored, and it
does not join occurrences in front of an idempotent body. -/
def KeepsHistory (p : Program) (r : Rule) : Prop :=
  r.isPropagation = true ∧
    (∀ q ∈ p.occurrences, q.rule = r.id → q.head = .positive → p.mayBeStored q.constraint = true) ∧
    ¬(1 < r.head.length ∧ p.hasIdempotentBody r = true)

/-- With a single head, an instance stored earlier comes back by a trigger. -/
def RepeatsAlone (p : Program) (o : Occurrence) : Prop :=
  p.StoredBefore o ∧ p.Reactivates o.rule o.constraint

/-- With partners, an earlier instance comes back with a partner that fires again or by a
trigger, or the body finds the stored instance among several partners. -/
def RepeatsJoined (p : Program) (elision : Bool) (o : Occurrence) : Prop :=
  (p.StoredBefore o ∧ ((p.Reactivates o.rule o.constraint ∧ elision = false) ∨
    ∃ q, p.HeadPartner o q ∧
      (p.Reactivates o.rule q.constraint ∨ p.Activates o.rule q.constraint))) ∨
  (o.stored = true ∧ (∃ q, p.HeadPartner o q ∧ ¬p.FindsOne o q) ∧
    p.BodyObserves o.rule o.constraint)

/-- A firing of the rule through the active occurrence may be repeated on the same instances. -/
def MayRepeat (p : Program) (elision : Bool) (r : Rule) (o : Occurrence) : Prop :=
  (r.head.length = 1 ∧ p.RepeatsAlone o) ∨ (1 < r.head.length ∧ p.RepeatsJoined elision o)

section Verdict

variable {p : Program} {s : Session} {o : Occurrence}

theorem readSingletons_fst (p : Program) (o : Occurrence) (qs : List Occurrence) :
    (p.readSingletons o qs).1 = true ↔ ∀ q ∈ qs, p.FindsOne o q := by
  induction qs with
  | nil => simp [readSingletons]
  | cons q qs ih =>
    rw [List.forall_mem_cons, ← ih]
    cases hl : o.lookup? q.id with
    | none => simp [readSingletons, hl, FindsOne]
    | some l =>
      cases hk : p.constraint? q.constraint with
      | none => simp [readSingletons, hl, hk, FindsOne]
      | some k =>
        cases hc : k.categories.get? l.category with
        | none => simp [readSingletons, hl, hk, hc, FindsOne, Categories.getElem?_paths]
        | some category =>
          by_cases hs : category.path.isSingleton q.arity = true
          · simp [readSingletons, hl, hk, hc, hs, FindsOne, Categories.getElem?_paths]
          · simp [readSingletons, hl, hk, hc, hs, FindsOne, Categories.getElem?_paths]

theorem KnownTo.firesAgain_iff (hs : p.KnownTo s) (r : RuleId) (c : ConstraintId) :
    s.firesAgain r c = true ↔ p.Reactivates r c ∨ p.Activates r c := by
  rw [Session.firesAgain, Bool.or_eq_true, hs.reactivates, hs.activates]
  rfl

theorem KnownTo.verdict_iff (hs : p.KnownTo s) {r : Rule} {partners : List Occurrence}
    {before : Bool} (hmem : ∀ q, q ∈ partners ↔ p.HeadPartner o q)
    (hlen : r.head.length = partners.length + 1) (hbefore : before = true ↔ p.StoredBefore o)
    (elision : Bool) :
    (p.verdict s elision before o partners).needed = true ↔ p.MayRepeat elision r o := by
  have hagain := hs.reactivates o.rule o.constraint
  have hsees := hs.bodySees o.constraint o.rule
  have hfires : (partners.any fun q => s.firesAgain o.rule q.constraint) = true ↔
      ∃ q, p.HeadPartner o q ∧
        (p.Reactivates o.rule q.constraint ∨ p.Activates o.rule q.constraint) := by
    simp only [List.any_eq_true, hmem, hs.firesAgain_iff]
  have hones : (p.readSingletons o partners).1 = false ↔
      ∃ q, p.HeadPartner o q ∧ ¬p.FindsOne o q := by
    rw [← Bool.not_eq_true, readSingletons_fst]
    simp only [hmem, not_forall, exists_prop]
  cases partners with
  | nil =>
    have hone : r.head.length = 1 := hlen
    have halone : p.MayRepeat elision r o ↔ p.RepeatsAlone o := by simp [MayRepeat, hone]
    rw [halone, RepeatsAlone, ← hbefore, Reactivates, ← hagain]
    simp [verdict]
  | cons q qs =>
    have hjoin : p.MayRepeat elision r o ↔ p.RepeatsJoined elision o := by
      simp only [List.length_cons] at hlen
      have hone : r.head.length ≠ 1 := by omega
      have hmany : 1 < r.head.length := by omega
      simp [MayRepeat, hone, hmany]
    rw [hjoin, RepeatsJoined, ← hbefore, ← hfires, ← hones, ← hsees, Reactivates, ← hagain]
    -- the categories are read only where the first question did not settle the verdict
    by_cases hfirst :
      (before && ((s.holds (.reactivates (.body o.rule) o.constraint) && !elision) ||
        (q :: qs).any fun q => s.firesAgain o.rule q.constraint)) = true
    · simp only [verdict, List.isEmpty_cons, Bool.false_eq_true, if_false, hfirst,
        if_true, true_iff]
      simp only [Bool.and_eq_true, Bool.or_eq_true, Bool.not_eq_true'] at hfirst
      exact Or.inl hfirst
    · have hnot : ¬(before = true ∧
          ((s.holds (.reactivates (.body o.rule) o.constraint) = true ∧ elision = false) ∨
          ((q :: qs).any fun q => s.firesAgain o.rule q.constraint) = true)) := by
        simpa only [Bool.and_eq_true, Bool.or_eq_true, Bool.not_eq_true'] using hfirst
      simp only [verdict, List.isEmpty_cons, Bool.false_eq_true, if_false, hfirst, hnot, false_or]
      by_cases hstored : o.stored = true
      · simp [hstored]
      · simp [hstored]

end Verdict

/-- `q` has grown out of `p`, stores what `p` stores and finds single
partners only where `p` does. -/
structure Conserves (p q : Program) : Prop where
  grows : p.Grows q
  stored : ∀ (id : OccurrenceId) (u v : Occurrence), p.occurrence? id = some u →
    q.occurrence? id = some v →
    u.stored = true → v.stored = true
  findsOne : ∀ (id id' : OccurrenceId) (u v u' v' : Occurrence), p.occurrence? id = some u →
    q.occurrence? id = some v → p.occurrence? id' = some u' → q.occurrence? id' = some v' →
    q.FindsOne v v' → p.FindsOne u u'

namespace Conserves

variable {p q : Program} {id : OccurrenceId} {u v : Occurrence}

theorem eq_of_occurrence? (h : p.Conserves q) (hu : p.occurrence? id = some u)
    (hv : q.occurrence? id = some v) :
    v = { u with stored := v.stored, checkHistory := v.checkHistory, lookups := v.lookups } := by
  obtain ⟨_, _, _, hv'⟩ := h.grows.occurrence? hu
  rw [hv] at hv'
  cases hv'
  rfl

theorem storedBefore (h : p.Conserves q) (hu : p.occurrence? id = some u)
    (hv : q.occurrence? id = some v) (hb : p.StoredBefore u) : q.StoredBefore v := by
  obtain ⟨w, hw, hc, hlt, hs⟩ := hb
  obtain ⟨hmem, hactive⟩ := mem_active.mp hw
  obtain ⟨i, hi⟩ := mem_occurrences_iff.mp hmem
  obtain ⟨stored, check, lookups, hi'⟩ := h.grows.occurrence? hi
  rw [h.eq_of_occurrence? hu hv]
  exact ⟨_, mem_active.mpr ⟨mem_occurrences_iff.mpr ⟨i, hi'⟩, hactive⟩, hc, hlt,
    h.stored i _ _ hi hi' hs⟩

theorem headPartner (h : p.Conserves q) (hu : p.occurrence? id = some u)
    (hv : q.occurrence? id = some v) {w : Occurrence} (hw : p.HeadPartner u w) :
    ∃ (i : OccurrenceId) (w' : Occurrence), p.occurrence? i = some w ∧
      q.occurrence? i = some w' ∧ q.HeadPartner v w' ∧ w'.constraint = w.constraint := by
  obtain ⟨hmem, hrule, hpos, hne⟩ := hw
  obtain ⟨i, hi⟩ := mem_occurrences_iff.mp hmem
  obtain ⟨stored, check, lookups, hi'⟩ := h.grows.occurrence? hi
  refine ⟨i, _, hi, hi', ?_, rfl⟩
  rw [h.eq_of_occurrence? hu hv]
  exact ⟨mem_occurrences_iff.mpr ⟨i, hi'⟩, hrule, hpos, hne⟩

theorem reactivates (h : p.Conserves q) {r : RuleId} {c : ConstraintId} (hc : p.Reactivates r c) :
    q.Reactivates r c :=
  ⟨h.grows.reactive hc.1, h.grows.reachesTrigger hc.2⟩

theorem repeatsAlone (h : p.Conserves q) (hu : p.occurrence? id = some u)
    (hv : q.occurrence? id = some v) (hr : p.RepeatsAlone u) : q.RepeatsAlone v := by
  refine ⟨h.storedBefore hu hv hr.1, ?_⟩
  rw [h.eq_of_occurrence? hu hv]
  exact h.reactivates hr.2

theorem repeatsJoined (h : p.Conserves q) {elision : Bool} (hu : p.occurrence? id = some u)
    (hv : q.occurrence? id = some v) (hr : p.RepeatsJoined elision u) :
    q.RepeatsJoined elision v := by
  have hrule : v.rule = u.rule := by rw [h.eq_of_occurrence? hu hv]
  have hconstraint : v.constraint = u.constraint := by rw [h.eq_of_occurrence? hu hv]
  rw [RepeatsJoined, hrule, hconstraint]
  rcases hr with ⟨hb, ⟨hre, he⟩ | ⟨w, hw, hfires⟩⟩ | ⟨hs, ⟨w, hw, hmany⟩, hsees⟩
  · exact Or.inl ⟨h.storedBefore hu hv hb, Or.inl ⟨h.reactivates hre, he⟩⟩
  · obtain ⟨i, w', _, _, hw', hc⟩ := h.headPartner hu hv hw
    refine Or.inl ⟨h.storedBefore hu hv hb, Or.inr ⟨w', hw', ?_⟩⟩
    rw [hc]
    exact hfires.imp h.reactivates h.grows.activates
  · obtain ⟨i, w', hi, hi', hw', _⟩ := h.headPartner hu hv hw
    refine Or.inr ⟨h.stored id u v hu hv hs, ⟨w', hw', fun hone => ?_⟩, h.grows.bodyObserves hsees⟩
    exact hmany (h.findsOne id i u v w w' hu hv hi hi' hone)

theorem mayRepeat (h : p.Conserves q) {elision : Bool} (hu : p.occurrence? id = some u)
    (hv : q.occurrence? id = some v) {r r' : Rule} (hhead : r'.head = r.head)
    (hr : p.MayRepeat elision r u) :
    q.MayRepeat elision r' v := by
  rw [MayRepeat, hhead]
  exact hr.imp (fun hone => ⟨hone.1, h.repeatsAlone hu hv hone.2⟩)
    fun hmany => ⟨hmany.1, h.repeatsJoined hu hv hmany.2⟩

end Conserves

theorem Grows.keepsHistory {p q : Program} (h : p.Grows q) (hp : p.WellFormed) (hq : q.WellFormed)
    {r r' : Rule} {id : RuleId} (hr : p.rule? id = some r) (hr' : q.rule? id = some r')
    (hk : p.KeepsHistory r) :
    q.KeepsHistory r' := by
  obtain ⟨needs, hints, hr''⟩ := h.rule? hr
  rw [hr'] at hr''
  cases hr''
  have hmem : r ∈ p.rules := mem_rules_iff.mpr ⟨id, hr⟩
  obtain ⟨hprop, hstored, hnot⟩ := hk
  refine ⟨hprop, fun u hu hrule hpos => ?_, fun hboth => hnot ⟨hboth.1, ?_⟩⟩
  · -- the head is the same, so growth puts no new occurrence into it
    have hid : u.id ∈ r.head := (hq.mem_head hu (mem_rules_iff.mpr ⟨id, hr'⟩)).mpr ⟨hrule, hpos⟩
    obtain ⟨os, _, hos, hiff⟩ := hp.resolve?_eq_some hmem fun i hi => List.mem_append_left _ hi
    rw [← hos] at hid
    obtain ⟨o, ho, hoid⟩ := List.mem_map.mp hid
    have ho' := (hiff o).mp ho
    obtain ⟨stored, check, lookups, hqo⟩ := h.occurrence? (hp.occurrence?_id ho'.1)
    have hqu := hq.occurrence?_id hu
    rw [← hoid, hqo] at hqu
    obtain rfl := Option.some.inj hqu
    obtain ⟨k, hk, _⟩ := hp.declared o ho'.1
    have hplace := (hp.mem_head ho'.1 hmem).mp ho'.2
    rw [show q.mayBeStored o.constraint = p.mayBeStored o.constraint from h.mayBeStored_eq hk]
    exact hstored o ho'.1 hplace.1 hplace.2
  · have hbody : ∀ g ∈ r.body, q.isIdempotent g = p.isIdempotent g := fun g hg => by
      cases g with
      | call c args =>
        obtain ⟨k, hk, _⟩ := hp.called r hmem c args hg
        obtain ⟨_, _, _, _, hk'⟩ := h.constraint? hk
        simp [isIdempotent, hk, hk']
      | builtIn _ | triggering | pessimistic | free => rfl
    have hidem : r.body.all q.isIdempotent = true := hboth.2
    rw [hasIdempotentBody, List.all_eq_true]
    intro g hg
    rw [← hbody g hg]
    exact List.all_eq_true.mp hidem g hg

end Program

end ConstraintRules
