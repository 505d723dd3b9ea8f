import ConstraintRules.Proofs.Parts
import ConstraintRules.Proofs.Repetition

/-! Array indexing adds direct access to some lookups. Partners, paths and
categories stay the same. -/

namespace ConstraintRules

def Search.indirect (s : Search) : Search := { s with direct := none }

def Lookup.indirect (l : Lookup) : Lookup := { l with direct := none }

def Occurrence.indirect (o : Occurrence) : Occurrence :=
  { o with lookups := o.lookups.map Lookup.indirect }

namespace Program

def indirect (p : Program) : Program :=
  { p with occurrences := p.occurrences.map Occurrence.indirect }

variable {p q : Program}

@[simp] theorem bare_indirect (p : Program) : p.indirect.bare = p.bare := by
  rw [bare, indirect, List.map_map]
  rfl

theorem occurrence?_indirect (p : Program) (o : OccurrenceId) :
    p.indirect.occurrence? o = (p.occurrence? o).map Occurrence.indirect := by
  simp [occurrence?, indirect]

theorem only_indirect (p : Program) : (p.only .lookups).indirect = p.indirect.only .lookups := by
  simp only [indirect, only, List.map_map]
  rfl

section Plan

theorem searches?_indirect (p : Program) (r : Rule) (link : Option HeadLink) (o : Occurrence)
    (bound : List VarId) (us : List Occurrence) :
    (p.searches? r link o bound us).map (List.map Search.indirect) =
      p.searches? r none o bound us := by
  induction us generalizing bound with
  | nil => rfl
  | cons u us ih =>
    rw [searches?, searches?]
    cases r.guardOf? u.head with
    | none => rfl
    | some guard =>
      cases p.constraint? u.constraint with
      | none => rfl
      | some k =>
        simp only [Option.bind_eq_bind, Option.bind_some, ← ih (bound ++ u.args)]
        cases p.searches? r link o (bound ++ u.args) us <;> rfl

theorem occurrencePlan?_indirect (p : Program) (arrayIndexing : Bool) (o : Occurrence) :
    (p.occurrencePlan? arrayIndexing o).map (List.map Search.indirect) =
      p.occurrencePlan? false o := by
  rw [occurrencePlan?, occurrencePlan?]
  cases p.rule? o.rule with
  | none => rfl
  | some r =>
    simp only [Option.bind_eq_bind, Option.bind_some]
    cases p.resolve? r.head with
    | none => rfl
    | some head =>
      simp only [Option.bind_some]
      cases p.partners? o with
      | none => rfl
      | some ids =>
        simp only [Option.bind_some]
        cases p.resolve? ids with
        | none => rfl
        | some us => exact p.searches?_indirect r _ o o.args us

theorem searchPlan?_indirect (p : Program) (arrayIndexing : Bool) :
    (p.searchPlan? arrayIndexing).map (List.map Search.indirect) = p.searchPlan? false := by
  have hplans :
      (p.active.mapM (p.occurrencePlan? arrayIndexing)).map (List.map (List.map Search.indirect)) =
      p.active.mapM (p.occurrencePlan? false) := by
    rw [← mapM_option_map]
    congr
    funext o
    exact p.occurrencePlan?_indirect arrayIndexing o
  rw [searchPlan?, searchPlan?, ← hplans, Option.map_map, Option.map_map]
  congr 1
  funext plans
  exact List.map_flatten

end Plan

section Record

theorem record_indirect (p : Program) (s : Search) :
    p.indirect.record s.indirect = (p.record s).map indirect := by
  have hwith : ∀ id cs, p.indirect.withLookup s.indirect id cs = (p.withLookup s id cs).indirect :=
    fun id cs => by
    simp only [withLookup, modifyConstraint, modifyOccurrence, indirect]
    rw [map_modify_comm]
    · rfl
    · intro o
      simp [Occurrence.indirect, Lookup.indirect, Search.indirect]
  rw [record_eq, record_eq, show p.indirect.constraint? s.indirect.target =
    p.constraint? s.target from rfl]
  cases p.constraint? s.target with
  | none => rfl
  | some k =>
    simp only [show s.indirect.path = s.path from rfl,
      show s.indirect.partner = s.partner from rfl, hwith]
    cases k.categories.enter s.path s.partner <;> rfl

theorem recordAll_indirect (p : Program) (plan : List Search) :
    p.indirect.recordAll (plan.map Search.indirect) =
      ((p.recordAll plan).1, (p.recordAll plan).2.indirect) := by
  induction plan generalizing p with
  | nil => rfl
  | cons s rest ih =>
    rw [List.map_cons, recordAll, recordAll, record_indirect]
    cases p.record s with
    | error e => rfl
    | ok q => exact ih q

theorem clearLookups_indirect (p : Program) :
    p.indirect.clearLookups = p.clearLookups.indirect := by
  simp only [clearLookups, indirect, List.map_map]
  congr 1
  apply List.map_congr_left
  intro o _
  show (if o.isActive then _ else _) = _
  by_cases ha : o.isActive = true
  · simp only [Function.comp_apply, ha, if_true]
    rfl
  · simp only [Function.comp_apply, ha]
    rfl

theorem assignLookups_indirect {arrayIndexing : Bool} {stats : LookupStats}
    (h : p.assignLookups arrayIndexing = .done stats q) :
    p.indirect.assignLookups false = .done { stats with directAccess := 0 } q.indirect := by
  have hplan : p.indirect.searchPlan? false =
      (p.searchPlan? arrayIndexing).map (List.map Search.indirect) := by
    rw [← searchPlan?_bare, bare_indirect, searchPlan?_bare, searchPlan?_indirect]
  rw [assignLookups, hplan, clearLookups_indirect]
  rw [assignLookups] at h
  cases hp : p.searchPlan? arrayIndexing with
  | none => simp [hp] at h
  | some plan =>
    cases hr : p.clearLookups.recordAll plan with
    | mk error t =>
      cases error with
      | some e => simp [hp, hr] at h
      | none =>
        simp only [hp, hr, Outcome.done.injEq] at h
        obtain ⟨rfl, rfl⟩ := h
        simp only [Option.map_some, recordAll_indirect, hr, Outcome.done.injEq]
        refine ⟨?_, rfl⟩
        have hnone : (plan.map Search.indirect).countP (fun s => s.direct.isSome) = 0 := by
          simp [List.countP_eq_zero, Search.indirect]
        simp only [LookupStats.ofPlan, hnone, List.length_map, List.countP_map]
        rfl

end Record

theorem lookup?_indirect (o : Occurrence) (id : OccurrenceId) :
    o.indirect.lookup? id = (o.lookup? id).map Lookup.indirect := by
  rw [Occurrence.lookup?, Occurrence.indirect, List.find?_map]
  rfl

/-- Which partners are found singly follows from the lookups without direct
access and from the categories. -/
theorem FindsOne.of_indirect_eq (h : (p.only .lookups).indirect = (q.only .lookups).indirect)
    {id id' : OccurrenceId} {u v u' v' : Occurrence} (hu : p.occurrence? id = some u)
    (hv : q.occurrence? id = some v) (hu' : p.occurrence? id' = some u')
    (hv' : q.occurrence? id' = some v') (hone : q.FindsOne v v') :
    p.FindsOne u u' := by
  have hocc : ∀ i, ((p.occurrence? i).map (Occurrence.only .lookups)).map Occurrence.indirect =
      ((q.occurrence? i).map (Occurrence.only .lookups)).map Occurrence.indirect := fun i => by
    rw [← occurrence?_only, ← occurrence?_only, ← occurrence?_indirect, ← occurrence?_indirect, h]
  have hcon : ∀ c, (p.constraint? c).map (Constraint.only .lookups) =
      (q.constraint? c).map (Constraint.only .lookups) :=
    fun c => by
    rw [← constraint?_only, ← constraint?_only]
    exact congrArg (fun p => p.constraint? c) h
  have hsource : (u.only .lookups).indirect = (v.only .lookups).indirect := by
    have hi := hocc id
    rw [hu, hv] at hi
    exact Option.some.inj hi
  have htarget : (u'.only .lookups).indirect = (v'.only .lookups).indirect := by
    have hi := hocc id'
    rw [hu', hv'] at hi
    exact Option.some.inj hi
  have hid := congrArg Occurrence.id htarget
  have hc := congrArg Occurrence.constraint htarget
  have harity := congrArg Occurrence.arity htarget
  have hlookups := congrArg Occurrence.lookups hsource
  have hlookup : (u.lookup? v'.id).map Lookup.indirect = (v.lookup? v'.id).map Lookup.indirect := by
    rw [← lookup?_indirect, ← lookup?_indirect, Occurrence.lookup?, Occurrence.lookup?]
    exact congrArg (List.find? fun l => decide (l.partner = v'.id)) hlookups
  obtain ⟨l, k, path, hl, hk, hpath, hsingle⟩ := hone
  rw [hl] at hlookup
  obtain ⟨l', hl', he⟩ := Option.map_eq_some_iff.mp hlookup
  have hk' := hcon v'.constraint
  rw [hk] at hk'
  obtain ⟨k', hk', hek⟩ := Option.map_eq_some_iff.mp hk'
  have hcategory := congrArg Lookup.category he
  have hcategories := congrArg Constraint.categories hek
  refine ⟨l', k', path, ?_, ?_, ?_, ?_⟩
  · rw [show u'.id = v'.id from hid]
    exact hl'
  · rw [show u'.constraint = v'.constraint from hc]
    exact hk'
  · rw [show l'.category = l.category from hcategory,
      show k'.categories = k.categories from hcategories]
    exact hpath
  · rw [show u'.arity = v'.arity from harity]
    exact hsingle

end Program

end ConstraintRules
