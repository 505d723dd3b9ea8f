import ConstraintRules.Proofs.BareReads
import ConstraintRules.Proofs.Indexing

/-! The annotations of a program fall into parts. A pass before history reads the
bare program and its own part. -/

namespace ConstraintRules

open Activation

/-- The annotations that one pass writes. Which categories are frozen is part of the lookups. -/
inductive Part where
  | lookups
  | joins
  | storage
  | removees
  | recursion
  | history
deriving DecidableEq

def Constraint.only (x : Part) (k : Constraint) : Constraint :=
  match x with
  | .lookups => { k.bare with categories := k.categories }
  | .removees => { k.bare with removees := k.removees }
  | .recursion => { k.bare with isRecursive := k.isRecursive }
  | .joins | .storage | .history => k.bare

def Rule.only (x : Part) (r : Rule) : Rule :=
  match x with
  | .joins => { r.bare with hints := r.hints }
  | .history => { r.bare with needsHistory := r.needsHistory }
  | .lookups | .storage | .removees | .recursion => r.bare

def Occurrence.only (x : Part) (o : Occurrence) : Occurrence :=
  match x with
  | .lookups => { o.bare with lookups := o.lookups }
  | .storage => { o.bare with stored := o.stored }
  | .history => { o.bare with checkHistory := o.checkHistory }
  | .joins | .removees | .recursion => o.bare

theorem Constraint.eq_of_only_eq {k k' : Constraint} (h : ∀ x, k.only x = k'.only x) : k = k' := by
  have hl := h .lookups
  have hr := h .removees
  have hrec := h .recursion
  cases k
  cases k'
  simp only [only, bare, Constraint.mk.injEq] at hl hr hrec
  simp_all

theorem Rule.eq_of_only_eq {r r' : Rule} (h : ∀ x, r.only x = r'.only x) : r = r' := by
  have hj := h .joins
  have hh := h .history
  cases r
  cases r'
  simp only [only, bare, Rule.mk.injEq] at hj hh
  simp_all

theorem Occurrence.eq_of_only_eq {o o' : Occurrence} (h : ∀ x, o.only x = o'.only x) : o = o' := by
  have hl := h .lookups
  have hs := h .storage
  have hh := h .history
  cases o
  cases o'
  simp only [only, bare, Occurrence.mk.injEq] at hl hs hh
  simp_all

@[simp] theorem Constraint.bare_only (x : Part) (k : Constraint) : (k.only x).bare = k.bare := by
  cases x <;> rfl

@[simp] theorem Rule.bare_only (x : Part) (r : Rule) : (r.only x).bare = r.bare := by
  cases x <;> rfl

@[simp] theorem Occurrence.bare_only (x : Part) (o : Occurrence) : (o.only x).bare = o.bare := by
  cases x <;> rfl

theorem Constraint.only_categories {x : Part} (hx : x ≠ .lookups) (k : Constraint)
    (cs : Categories) :
    ({ k with categories := cs } : Constraint).only x = k.only x := by
  cases x with
  | lookups => exact absurd rfl hx
  | joins | storage | removees | recursion | history => rfl

theorem Constraint.only_removees {x : Part} (hx : x ≠ .removees) (k : Constraint)
    (cs : List ConstraintId) :
    ({ k with removees := cs } : Constraint).only x = k.only x := by
  cases x with
  | removees => exact absurd rfl hx
  | lookups | joins | storage | recursion | history => rfl

theorem Constraint.only_isRecursive {x : Part} (hx : x ≠ .recursion) (k : Constraint) (b : Bool) :
    ({ k with isRecursive := b } : Constraint).only x = k.only x := by
  cases x with
  | recursion => exact absurd rfl hx
  | lookups | joins | storage | removees | history => rfl

theorem Rule.only_hints {x : Part} (hx : x ≠ .joins) (r : Rule) (h : Option JoinHints) :
    ({ r with hints := h } : Rule).only x = r.only x := by
  cases x with
  | joins => exact absurd rfl hx
  | lookups | storage | removees | recursion | history => rfl

theorem Rule.only_needsHistory {x : Part} (hx : x ≠ .history) (r : Rule) (b : Bool) :
    ({ r with needsHistory := b } : Rule).only x = r.only x := by
  cases x with
  | history => exact absurd rfl hx
  | lookups | joins | storage | removees | recursion => rfl

theorem Occurrence.only_lookups {x : Part} (hx : x ≠ .lookups) (o : Occurrence) (ls : List Lookup) :
    ({ o with lookups := ls } : Occurrence).only x = o.only x := by
  cases x with
  | lookups => exact absurd rfl hx
  | joins | storage | removees | recursion | history => rfl

theorem Occurrence.only_stored {x : Part} (hx : x ≠ .storage) (o : Occurrence) (b : Bool) :
    ({ o with stored := b } : Occurrence).only x = o.only x := by
  cases x with
  | storage => exact absurd rfl hx
  | lookups | joins | removees | recursion | history => rfl

theorem Occurrence.only_checkHistory {x : Part} (hx : x ≠ .history) (o : Occurrence) (b : Bool) :
    ({ o with checkHistory := b } : Occurrence).only x = o.only x := by
  cases x with
  | history => exact absurd rfl hx
  | lookups | joins | storage | removees | recursion => rfl

@[simp] theorem Constraint.only_bare (x : Part) (k : Constraint) : k.bare.only x = k.bare := by
  cases x <;> rfl

@[simp] theorem Rule.only_bare (x : Part) (r : Rule) : r.bare.only x = r.bare := by
  cases x <;> rfl

@[simp] theorem Occurrence.only_bare (x : Part) (o : Occurrence) : o.bare.only x = o.bare := by
  cases x <;> rfl

theorem eq_of_map_eq {α β ι : Type} {f : ι → α → β} (hf : ∀ a b, (∀ i, f i a = f i b) → a = b)
    [Nonempty ι] {xs ys : List α} (h : ∀ i, xs.map (f i) = ys.map (f i)) : xs = ys := by
  induction xs generalizing ys with
  | nil =>
    have hnil := h (Classical.arbitrary ι)
    exact (List.map_eq_nil_iff.mp hnil.symm).symm
  | cons x xs ih =>
    cases ys with
    | nil => cases h (Classical.arbitrary ι)
    | cons y ys =>
      simp only [List.map_cons, List.cons.injEq] at h
      rw [hf x y fun i => (h i).1, ih fun i => (h i).2]

theorem map_modify_comm {α β : Type} {g : α → β} {f : α → α} {f' : β → β}
    (h : ∀ x, g (f x) = f' (g x)) (xs : List α) (i : Nat) :
    (xs.modify i f).map g = (xs.map g).modify i f' := by
  apply List.ext_getElem?
  intro j
  simp only [List.getElem?_map, List.getElem?_modify]
  by_cases hij : i = j
  · cases xs[j]? <;> simp [hij, h]
  · simp [hij]

namespace Program

/-- The bare program with one part of its annotations. -/
def only (x : Part) (p : Program) : Program :=
  { p with
    constraints := p.constraints.map (Constraint.only x)
    rules := p.rules.map (Rule.only x)
    occurrences := p.occurrences.map (Occurrence.only x) }

variable {p q : Program}

theorem eq_of_only_eq (h : ∀ x, p.only x = q.only x) : p = q := by
  have : Nonempty Part := ⟨.lookups⟩
  have hs : (p.only .lookups).symbols = (q.only .lookups).symbols := by rw [h]
  have hc : ∀ x, (p.only x).constraints = (q.only x).constraints := fun x => by rw [h]
  have hr : ∀ x, (p.only x).rules = (q.only x).rules := fun x => by rw [h]
  have ho : ∀ x, (p.only x).occurrences = (q.only x).occurrences := fun x => by rw [h]
  have hcs := eq_of_map_eq (fun _ _ => Constraint.eq_of_only_eq) hc
  have hrs := eq_of_map_eq (fun _ _ => Rule.eq_of_only_eq) hr
  have hos := eq_of_map_eq (fun _ _ => Occurrence.eq_of_only_eq) ho
  cases p
  cases q
  cases hs
  cases hcs
  cases hrs
  cases hos
  rfl

@[simp] theorem bare_only (x : Part) (p : Program) : (p.only x).bare = p.bare := by
  simp [only, bare]

@[simp] theorem only_bare (x : Part) (p : Program) : p.bare.only x = p.bare := by
  simp [only, bare]

theorem Unannotated.bare_eq (h : p.Unannotated) : p.bare = p := by
  have hc : p.constraints.map Constraint.bare = p.constraints.map id :=
    List.map_congr_left h.constraints
  have hr : p.rules.map Rule.bare = p.rules.map id := List.map_congr_left h.rules
  have ho : p.occurrences.map Occurrence.bare = p.occurrences.map id :=
    List.map_congr_left h.occurrences
  rw [bare, hc, hr, ho, List.map_id, List.map_id, List.map_id]

theorem bare_eq_of_only_eq {x : Part} (h : q.only x = p.only x) : q.bare = p.bare := by
  rw [← bare_only x q, h, bare_only]

theorem constraint?_only (x : Part) (p : Program) (c : ConstraintId) :
    (p.only x).constraint? c = (p.constraint? c).map (Constraint.only x) := by
  simp [constraint?, only]

theorem occurrence?_only (x : Part) (p : Program) (o : OccurrenceId) :
    (p.only x).occurrence? o = (p.occurrence? o).map (Occurrence.only x) := by
  simp [occurrence?, only]

theorem active_only (x : Part) (p : Program) :
    (p.only x).active = p.active.map (Occurrence.only x) := by
  have hactive : Occurrence.isActive ∘ Occurrence.only x = Occurrence.isActive := by cases x <;> rfl
  rw [active, only, List.filter_map, hactive]
  rfl

theorem mayBeStored_only (x : Part) (p : Program) (c : ConstraintId) :
    (p.only x).mayBeStored c = p.mayBeStored c := by
  rw [mayBeStored, mayBeStored, constraint?_only]
  cases p.constraint? c with
  | none => rfl
  | some k => cases x <;> rfl

theorem observationSession?_only (x : Part) (p : Program) :
    (p.only x).observationSession? = p.observationSession? := by
  rw [← observationSession?_bare, bare_only, observationSession?_bare]

theorem bodies_only (x : Part) (p : Program) : (p.only x).bodies = p.bodies := by
  rw [← bodies_bare, bare_only, bodies_bare]

end Program

namespace Outcome

variable {α : Type}

def mapProgram (f : Program → Program) : Outcome α → Outcome α
  | done a p => done a (f p)
  | failed e p => failed e (f p)
  | dangling => dangling

def Leaves (P : Program → Prop) : Outcome α → Prop
  | done _ p => P p
  | failed _ p => P p
  | dangling => True

theorem withSession_mapProgram {f : Program → Program} {p : Program}
    {session : Option (Except DanglingCall Session)} {next next' : Session → Outcome α}
    (h : ∀ s, next' s = (next s).mapProgram f) :
    withSession (f p) session next' = (withSession p session next).mapProgram f := by
  rcases session with _ | _ | s
  · rfl
  · rfl
  · exact h s

theorem withSession_leaves {P : Program → Prop} {p : Program}
    {session : Option (Except DanglingCall Session)} {next : Session → Outcome α} (hp : P p)
    (h : ∀ s, (next s).Leaves P) : (withSession p session next).Leaves P := by
  rcases session with _ | _ | s
  · trivial
  · exact hp
  · exact h s

end Outcome

namespace Program

section Local

theorem joinGraph?_only (x : Part) (p : Program) (r : Rule) :
    (p.only x).joinGraph? (r.only x) = p.joinGraph? r := by
  rw [← joinGraph?_bare, bare_only, Rule.bare_only, joinGraph?_bare]

theorem withHints?_only (p : Program) (r : Rule) :
    (p.only .joins).withHints? (r.only .joins) = (p.withHints? r).map (Rule.only .joins) := by
  rw [withHints?, withHints?, joinGraph?_only, show (r.only .joins).hasJoin = r.hasJoin from rfl]
  by_cases hj : r.hasJoin = true
  · rw [if_pos hj, if_pos hj, Option.map_map]
    rfl
  · rw [if_neg hj, if_neg hj]
    rfl

theorem planJoins_only (p : Program) :
    (p.only .joins).planJoins = p.planJoins.mapProgram (only .joins) := by
  have hrules : (p.only .joins).rules.mapM (p.only .joins).withHints? =
      (p.rules.mapM p.withHints?).map (List.map (Rule.only .joins)) := by
    rw [← mapM_option_map]
    exact mapM_map_eq p.withHints?_only p.rules
  rw [planJoins, planJoins, hrules]
  cases p.rules.mapM p.withHints? with
  | none => rfl
  | some rules =>
    have hstats : ((rules.map (Rule.only .joins)).filter Rule.hasJoin).filterMap Rule.hints =
        (rules.filter Rule.hasJoin).filterMap Rule.hints := by
      rw [List.filter_map, List.filterMap_map]
      rfl
    simp only [Option.map_some, hstats]
    rfl

theorem canWait_only (p : Program) (s : Session) (o : Occurrence) :
    (p.only .storage).canWait s (o.only .storage) = p.canWait s o := by
  rw [canWait, canWait, mustBeStored, mustBeStored, mayBeStored_only]
  rfl

theorem delay_only (p : Program) (s : Session) (o : Occurrence) :
    (p.only .storage).delay s (o.only .storage) = (p.delay s o).only .storage := by
  rw [delay, delay, canWait_only]
  by_cases hw : p.canWait s o = true
  · rw [if_pos hw, if_pos hw]
    rfl
  · rw [if_neg hw, if_neg hw]

theorem delayStorage_only (p : Program) :
    (p.only .storage).delayStorage = p.delayStorage.mapProgram (only .storage) := by
  have hunstored : ∀ s, (p.only .storage).occurrences.countP ((p.only .storage).canWait s) =
      p.occurrences.countP (p.canWait s) := fun s => by
    rw [only, List.countP_map, ← only]
    exact List.countP_congr fun o _ => by rw [Function.comp_apply, canWait_only]
  have hdelayed : ∀ s, (p.only .storage).occurrences.map ((p.only .storage).delay s) =
      (p.occurrences.map (p.delay s)).map (Occurrence.only .storage) := fun s => by
    rw [only, List.map_map, List.map_map, ← only]
    exact List.map_congr_left fun o _ => p.delay_only s o
  have hstorable : (p.only .storage).constraints.filter Constraint.mayBeStored =
      (p.constraints.filter Constraint.mayBeStored).map (Constraint.only .storage) := by
    rw [only, List.filter_map]
    rfl
  have hnever : ((p.only .storage).constraints.countP fun c => !c.mayBeStored) =
      p.constraints.countP fun c => !c.mayBeStored := by
    rw [only, List.countP_map]
    rfl
  rw [delayStorage, delayStorage, observationSession?_only, bodies_only]
  apply Outcome.withSession_mapProgram
  intro s
  simp only [hunstored, hdelayed, hstorable, hnever, rules_activeOf_eq (bare_only .storage p),
    List.flatMap_map]
  rfl

/-- What is noted from calls depends on the bare program only, if the notes do. -/
theorem noteCalls_only {α : Type} {x : Part} {p : Program} {further further' : Option (List Fact)}
    {note note' : Session → Constraint → Constraint} {stats stats' : Session → α}
    (hfurther : further' = further) (hnote : ∀ s c, note' s (c.only x) = (note s c).only x)
    (hstats : ∀ s, stats' s = stats s) :
    (p.only x).noteCalls further' note' stats' =
      (p.noteCalls further note stats).mapProgram (only x) := by
  have hsession : (p.only x).callSession? further' = p.callSession? further := by
    rw [← callSession?_bare, bare_only, callSession?_bare, hfurther]
  rw [noteCalls, noteCalls, hsession, constraintNodes_eq (bare_only x p)]
  apply Outcome.withSession_mapProgram
  intro s
  simp only [hstats, only, List.map_map, Function.comp_def, hnote, Outcome.mapProgram]

theorem findRemovees_only (p : Program) :
    (p.only .removees).findRemovees = p.findRemovees.mapProgram (only .removees) := by
  have hfacts : (p.only .removees).removalFacts? = p.removalFacts? := by
    rw [← removalFacts?_bare, bare_only, removalFacts?_bare]
  have hremovees : ∀ s c, (p.only .removees).removeesOf s c = p.removeesOf s c := fun s c => by
    rw [removeesOf, removeesOf, constraintIds_eq (bare_only .removees p)]
  refine noteCalls_only hfacts (fun s c => ?_) fun s => ?_
  · simp only [listRemovees, hremovees]
    rfl
  · simp only [removalStats, hremovees]
    simp only [only, List.countP_map, List.flatMap_map]
    rfl

theorem clearRecursion_only (p : Program) :
    (p.only .recursion).clearRecursion = p.clearRecursion.mapProgram (only .recursion) := by
  have hfacts : (p.only .recursion).stackFacts? = p.stackFacts? := by
    rw [← stackFacts?_bare, bare_only, stackFacts?_bare]
  refine noteCalls_only hfacts (fun s c => rfl) fun s => ?_
  simp only [recursionStats, only, List.countP_map]
  rfl

theorem record_only (p : Program) (s : Search) :
    (p.only .lookups).record s = (p.record s).map (only .lookups) := by
  have hwith : ∀ id cs, (p.only .lookups).withLookup s id cs =
      (p.withLookup s id cs).only .lookups := fun id cs => by
    simp only [withLookup, modifyConstraint, modifyOccurrence, only]
    rw [map_modify_comm, map_modify_comm]
    · intro _
      rfl
    · intro _
      rfl
  rw [record_eq, record_eq, constraint?_only]
  cases p.constraint? s.target with
  | none => rfl
  | some k =>
    simp only [Option.map_some, show (k.only .lookups).categories = k.categories from rfl, hwith]
    cases k.categories.enter s.path s.partner <;> rfl

theorem recordAll_only (p : Program) (plan : List Search) :
    (p.only .lookups).recordAll plan =
      ((p.recordAll plan).1, (p.recordAll plan).2.only .lookups) := by
  induction plan generalizing p with
  | nil => rfl
  | cons s rest ih =>
    rw [recordAll, recordAll, record_only]
    cases p.record s with
    | error e => rfl
    | ok q => exact ih q

theorem clearLookups_only (p : Program) :
    (p.only .lookups).clearLookups = p.clearLookups.only .lookups := by
  simp only [clearLookups, only, List.map_map]
  congr 1
  apply List.map_congr_left
  intro o _
  show (if o.isActive then _ else _) = _
  by_cases ha : o.isActive = true
  · simp only [Function.comp_apply, ha, if_true]
    rfl
  · simp only [Function.comp_apply, ha]
    rfl

theorem electMasters_only (p : Program) :
    (p.only .lookups).electMasters = p.electMasters.only .lookups := by
  simp only [electMasters, only, List.map_map]
  rfl

theorem categoryCount_only (p : Program) : (p.only .lookups).categoryCount = p.categoryCount := by
  rw [categoryCount, only, List.flatMap_map]
  rfl

theorem assignLookups_only (p : Program) (arrayIndexing : Bool) :
    (p.only .lookups).assignLookups arrayIndexing =
      (p.assignLookups arrayIndexing).mapProgram (only .lookups) := by
  have hplan : (p.only .lookups).searchPlan? arrayIndexing = p.searchPlan? arrayIndexing := by
    rw [← searchPlan?_bare, bare_only, searchPlan?_bare]
  rw [assignLookups, assignLookups, hplan]
  cases p.searchPlan? arrayIndexing with
  | none => rfl
  | some plan =>
    have hrecord : (p.only .lookups).clearLookups.recordAll plan =
        ((p.clearLookups.recordAll plan).1, (p.clearLookups.recordAll plan).2.only .lookups) := by
      rw [clearLookups_only, recordAll_only]
    simp only [hrecord]
    cases hp : p.clearLookups.recordAll plan with
    | mk error q =>
      cases error with
      | some e => rfl
      | none =>
        simp only [electMasters_only, categoryCount_only]
        rfl

end Local

section Frame

variable {x : Part} {p q : Program}

theorem withLookup_frame (hx : x ≠ .lookups) (p : Program) (s : Search) (id : CategoryId)
    (cs : Categories) :
    (p.withLookup s id cs).only x = p.only x := by
  have hc : (p.withLookup s id cs).constraints.map (Constraint.only x) =
      p.constraints.map (Constraint.only x) :=
    map_modify_eq fun k _ => k.only_categories hx cs
  have ho : (p.withLookup s id cs).occurrences.map (Occurrence.only x) =
      p.occurrences.map (Occurrence.only x) :=
    map_modify_eq fun o _ => o.only_lookups hx _
  rw [only, hc, ho]
  rfl

theorem record_frame (hx : x ≠ .lookups) {s : Search} (h : p.record s = .ok q) :
    q.only x = p.only x := by
  rw [record_eq] at h
  cases hk : p.constraint? s.target with
  | none =>
    rw [hk] at h
    cases h
    rfl
  | some k =>
    simp only [hk] at h
    cases he : k.categories.enter s.path s.partner with
    | error e =>
      rw [he] at h
      cases h
    | ok entered =>
      rw [he] at h
      cases h
      exact p.withLookup_frame hx s entered.1 entered.2

theorem recordAll_frame (hx : x ≠ .lookups) (p : Program) (plan : List Search) :
    (p.recordAll plan).2.only x = p.only x := by
  induction plan generalizing p with
  | nil => rfl
  | cons s rest ih =>
    rw [recordAll]
    cases hs : p.record s with
    | error e => rfl
    | ok q => exact (ih q).trans (record_frame hx hs)

theorem mapConstraints_frame (p : Program) {f : Constraint → Constraint}
    (hf : ∀ k, (f k).only x = k.only x) :
    ({ p with constraints := p.constraints.map f } : Program).only x = p.only x := by
  simp only [only, List.map_map, Function.comp_def, hf]

theorem mapOccurrences_frame (p : Program) {f : Occurrence → Occurrence}
    (hf : ∀ o, (f o).only x = o.only x) :
    ({ p with occurrences := p.occurrences.map f } : Program).only x = p.only x := by
  simp only [only, List.map_map, Function.comp_def, hf]

theorem assignLookups_frame (hx : x ≠ .lookups) (p : Program) (arrayIndexing : Bool) :
    (p.assignLookups arrayIndexing).Leaves fun q => q.only x = p.only x := by
  have hclear : p.clearLookups.only x = p.only x := by
    apply mapOccurrences_frame
    intro o
    split
    · exact o.only_lookups hx []
    · rfl
  rw [assignLookups]
  cases p.searchPlan? arrayIndexing with
  | none => trivial
  | some plan =>
    have hrecord := (recordAll_frame hx p.clearLookups plan).trans hclear
    cases hr : p.clearLookups.recordAll plan with
    | mk error q =>
      rw [hr] at hrecord
      cases error with
      | some e =>
        simp only [hr]
        exact hrecord
      | none =>
        simp only [hr]
        exact (mapConstraints_frame q fun k => k.only_categories hx _).trans hrecord

theorem map_eq_of_mapM {α β : Type} {f : α → Option α} {g : α → β}
    (hf : ∀ x y, f x = some y → g y = g x) {xs ys : List α} (h : xs.mapM f = some ys) :
    ys.map g = xs.map g := by
  rw [mapM_eq_some_iff] at h
  induction xs generalizing ys with
  | nil =>
    rw [List.map_eq_nil_iff.mp h.symm]
  | cons x xs ih =>
    cases ys with
    | nil => cases h
    | cons y ys =>
      simp only [List.map_cons, List.cons.injEq] at h ⊢
      exact ⟨hf x y h.1, ih h.2⟩

theorem withHints?_frame (hx : x ≠ .joins) {r r' : Rule} (h : p.withHints? r = some r') :
    r'.only x = r.only x := by
  rw [withHints?] at h
  split at h
  · obtain ⟨g, _, rfl⟩ := Option.map_eq_some_iff.mp h
    exact r.only_hints hx _
  · cases h
    rfl

theorem planJoins_frame (hx : x ≠ .joins) (p : Program) :
    p.planJoins.Leaves fun q => q.only x = p.only x := by
  rw [planJoins]
  cases hr : p.rules.mapM p.withHints? with
  | none => trivial
  | some rules =>
    have hrules : rules.map (Rule.only x) = p.rules.map (Rule.only x) :=
      map_eq_of_mapM (fun _ _ => withHints?_frame hx) hr
    simp only [Outcome.Leaves, only, hrules]

theorem delayStorage_frame (hx : x ≠ .storage) (p : Program) :
    p.delayStorage.Leaves fun q => q.only x = p.only x := by
  apply Outcome.withSession_leaves
  · rfl
  · intro s
    apply mapOccurrences_frame
    intro o
    rw [delay]
    split
    · exact o.only_stored hx false
    · rfl

theorem noteCalls_frame {α : Type} {further : Option (List Fact)}
    {note : Session → Constraint → Constraint} {stats : Session → α}
    (hnote : ∀ s k, (note s k).only x = k.only x) (p : Program) :
    (p.noteCalls further note stats).Leaves fun q => q.only x = p.only x := by
  apply Outcome.withSession_leaves
  · rfl
  · intro s
    exact mapConstraints_frame p fun k => hnote _ k

theorem findRemovees_frame (hx : x ≠ .removees) (p : Program) :
    p.findRemovees.Leaves fun q => q.only x = p.only x :=
  noteCalls_frame (fun _ k => k.only_removees hx _) p

theorem clearRecursion_frame (hx : x ≠ .recursion) (p : Program) :
    p.clearRecursion.Leaves fun q => q.only x = p.only x :=
  noteCalls_frame (fun _ k => k.only_isRecursive hx _) p

end Frame

end Program

end ConstraintRules
