import ConstraintRules.Proofs.Enrolment
import ConstraintRules.Proofs.JoinOrder
import ConstraintRules.Proofs.Preparation

/-! Lookups and categories agree. The lookups of an active occurrence are its
plan, and members are the partners searched along the path. -/

namespace ConstraintRules

/-- What is searched, how, and whether an array is indexed. -/
def Search.request (s : Search) : OccurrenceId × AccessPath × Option DirectAccess :=
  (s.partner, s.path, s.direct)

def Lookup.request (l : Lookup) : OccurrenceId × AccessPath × Option DirectAccess :=
  (l.partner, l.path, l.direct)

theorem Lookup.eq_of_request_eq {l : Lookup} {s : Search} (h : l.request = s.request) :
    l.partner = s.partner ∧ l.path = s.path :=
  ⟨congrArg Prod.fst h, congrArg (fun r => r.2.1) h⟩

/-- What a search enters in the categories of its target. -/
def Search.entry (s : Search) : AccessPath × OccurrenceId := (s.path, s.partner)

namespace Program

variable {p q : Program} {plan : List Search}

theorem constraint?_withLookup (p : Program) (s : Search) (id : CategoryId) (cs : Categories)
    (c : ConstraintId) :
    (p.withLookup s id cs).constraint? c =
      (p.constraint? c).map fun k => if s.target = c then { k with categories := cs } else k :=
  p.constraint?_modify s.target c fun k => { k with categories := cs }

theorem map_request_withLookup (s : Search) (id : CategoryId) (cs : Categories) {o : OccurrenceId}
    {u : Occurrence} (hu : (p.withLookup s id cs).occurrence? o = some u) :
    ∃ v, p.occurrence? o = some v ∧
      u.lookups.map Lookup.request =
        v.lookups.map Lookup.request ++ if s.active = o then [s.request] else [] := by
  have hid : s.active.index = o.index ↔ s.active = o := by
    cases o
    cases s.active
    simp
  simp only [occurrence?, withLookup, modifyOccurrence, List.getElem?_modify, hid] at hu
  obtain ⟨v, hv, rfl⟩ := Option.map_eq_some_iff.mp hu
  refine ⟨v, hv, ?_⟩
  by_cases ho : s.active = o
  · simp [ho, Lookup.request, Search.request]
  · simp [ho]

/-- The lookups of every occurrence are those of its searches in the list. -/
def Listed (p : Program) (plan : List Search) : Prop :=
  ∀ id o, p.occurrence? id = some o →
    o.lookups.map Lookup.request = (plan.filter fun s => s.active = id).map Search.request

theorem Listed.withLookup (h : p.Listed plan) (s : Search) (id : CategoryId) (cs : Categories) :
    (p.withLookup s id cs).Listed (plan ++ [s]) := by
  intro o u hou
  obtain ⟨v, hv, hlookups⟩ := map_request_withLookup s id cs hou
  rw [hlookups, h o v hv, List.filter_append, List.map_append]
  by_cases ho : s.active = o <;> simp [ho]

/-- The lookups and the categories are those of the searches in the list, and
no master has been elected. -/
structure Recorded (p : Program) (plan : List Search) : Prop where
  lookups : p.Listed plan
  enrolled : ∀ c k, p.constraint? c = some k →
    k.categories.Enrolled ((plan.filter fun s => s.target = c).map Search.entry)
  unelected : ∀ c k, p.constraint? c = some k → k.categories.Unelected

theorem Recorded.record (h : p.Recorded plan) (hu : p.Unfrozen) {s : Search} (hs : s.Fits p) :
    ∃ q, p.record s = .ok q ∧ q.Recorded (plan ++ [s]) := by
  obtain ⟨k, id, cs, hk, henter, hrecord⟩ := record_eq_ok hu hs
  obtain ⟨id', cs', henter', hcs, hcsu⟩ :=
    (h.enrolled s.target k hk).enter (h.unelected s.target k hk) (hu.constraint? hk)
      s.path s.partner
  rw [henter] at henter'
  cases henter'
  have hcategories : ∀ c l, (p.withLookup s id cs).constraint? c = some l →
      l.categories.Enrolled (((plan ++ [s]).filter fun s => s.target = c).map Search.entry) ∧
        l.categories.Unelected := by
    intro c l hl
    rw [constraint?_withLookup] at hl
    obtain ⟨k', hk', rfl⟩ := Option.map_eq_some_iff.mp hl
    by_cases hc : s.target = c
    · subst hc
      simpa [Search.entry] using And.intro hcs hcsu
    · simpa [hc] using And.intro (h.enrolled c k' hk') (h.unelected c k' hk')
  exact ⟨_, hrecord, h.lookups.withLookup s id cs, fun c l hl => (hcategories c l hl).1,
    fun c l hl => (hcategories c l hl).2⟩

theorem Recorded.recordAll (h : p.Recorded plan) (hu : p.Unfrozen) (hi : p.Indexed)
    {more : List Search} (hmore : ∀ s ∈ more, s.Fits p) :
    ∃ q, p.recordAll more = (none, q) ∧ q.Recorded (plan ++ more) := by
  induction more generalizing p plan with
  | nil => exact ⟨p, rfl, by simpa using h⟩
  | cons s rest ih =>
    have hs := hmore s List.mem_cons_self
    obtain ⟨q, hrecord, hq⟩ := h.record hu hs
    obtain ⟨q', hrecord', hpq, hqu, hqi⟩ := record_spec hu hi hs
    rw [hrecord] at hrecord'
    cases hrecord'
    obtain ⟨t, hrest, ht⟩ :=
      ih hq hqu hqi fun s' hs' => (hmore s' (List.mem_cons_of_mem _ hs')).reindexed hpq
    exact ⟨t, by rw [Program.recordAll, hrecord]; exact hrest, by simpa using ht⟩

/-- Passive occurrences have no lookups, so that without those of the active ones there are none. -/
theorem clearLookups_listed (h : ∀ o ∈ p.occurrences, o.isActive = false → o.lookups = []) :
    p.clearLookups.Listed [] := by
  intro id o ho
  obtain ⟨o', ho', rfl⟩ := List.mem_map.mp (List.mem_of_getElem? ho)
  by_cases ha : o'.isActive = true
  · simp [ha]
  · simp [ha, h o' ho' (by simpa using ha)]

theorem Unannotated.clearLookups_recorded (h : p.Unannotated) : p.clearLookups.Recorded [] := by
  have hcategories : ∀ c k, p.clearLookups.constraint? c = some k →
      k.categories = .empty := fun c k hk => by
    rw [← h.constraints k (List.mem_of_getElem? hk)]
    rfl
  refine ⟨clearLookups_listed fun o ho _ => ?_, fun c k hk => ?_, fun c k hk => ?_⟩
  · rw [← h.occurrences o ho]
    rfl
  · rw [hcategories c k hk]
    exact Categories.enrolled_empty
  · rw [hcategories c k hk]
    exact Categories.unelected_empty

theorem flatMap_ite_eq {α β : Type} [DecidableEq α] {xs : List α} (h : xs.Nodup) (x : α)
    (f : α → List β) :
    (xs.flatMap fun y => if y = x then f y else []) = if x ∈ xs then f x else [] := by
  induction xs with
  | nil => rfl
  | cons y ys ih =>
    obtain ⟨hy, hys⟩ := List.nodup_cons.mp h
    rw [List.flatMap_cons, ih hys]
    by_cases hyx : y = x
    · subst hyx
      simp [hy]
    · simp [hyx, Ne.symm hyx]

theorem WellFormed.filter_plan (h : p.WellFormed) (arrayIndexing : Bool) {o : Occurrence}
    (ho : o ∈ p.occurrences) :
    ((p.active.flatMap (p.planOf arrayIndexing)).filter fun s => s.active = o.id) =
      if o ∈ p.active then p.planOf arrayIndexing o else [] := by
  have hactive : ∀ u ∈ p.active, ∀ s ∈ p.planOf arrayIndexing u,
      s.active = u.id := fun u hu s hs => by
    obtain ⟨_, _, hplans⟩ := h.plans_of_mem (List.mem_of_mem_filter hu) hs
    exact hplans.active_eq
  rw [← flatMap_ite_eq (show p.active.Nodup from h.nodup_occurrences.filter _), List.filter_flatMap]
  apply List.flatMap_congr
  intro u hu
  by_cases huo : u = o
  · rw [if_pos huo, List.filter_eq_self]
    intro s hs
    exact decide_eq_true (huo ▸ hactive u hu s hs)
  · rw [if_neg huo, List.filter_eq_nil_iff]
    intro s hs hso
    exact huo (h.eq_of_id_eq (List.mem_of_mem_filter hu) ho
      ((hactive u hu s hs).symm.trans (of_decide_eq_true hso)))

theorem WellFormed.fits (h : p.WellFormed) {arrayIndexing : Bool} {s : Search}
    (hs : s ∈ p.active.flatMap (p.planOf arrayIndexing)) : s.Fits p := by
  obtain ⟨plan, hplan, hfits⟩ := h.searchPlan?_eq_some arrayIndexing
  rw [h.searchPlan?_eq] at hplan
  cases hplan
  exact hfits s hs

/-- `q` is `p` with the lookups of its plan, the categories that they need and a
master for every constraint. -/
structure Assigned (p q : Program) (arrayIndexing : Bool) : Prop where
  reindexed : p.Reindexed q
  indexed : q.Indexed
  lookups : ∀ o ∈ p.occurrences, ∃ lookups, q.occurrence? o.id = some { o with lookups } ∧
    lookups.map Lookup.request =
      (if o ∈ p.active then p.planOf arrayIndexing o else []).map Search.request
  categories : ∀ c k, q.constraint? c = some k →
    k.categories.Headed k.mayBeStored ∧ k.categories.Enrolled
    (((p.active.flatMap (p.planOf arrayIndexing)).filter fun s => s.target = c).map Search.entry)

theorem build_assigned (steps : List BuildStep) (arrayIndexing : Bool) : ∃ stats q,
    (build steps).assignLookups arrayIndexing = .done stats q ∧
      (build steps).Assigned q arrayIndexing := by
  have hready := build_ready steps
  have h := hready.wellFormed
  have hplan := h.searchPlan?_eq arrayIndexing
  have hfits : ∀ s ∈ (build steps).active.flatMap ((build steps).planOf arrayIndexing),
      s.Fits (build steps) :=
    fun s hs => h.fits hs
  obtain ⟨hclear, hclearu, hcleari, _⟩ := (build steps).clearLookups_carries
  obtain ⟨q, hrecord, hq⟩ :=
    (build_unannotated steps).clearLookups_recorded.recordAll (hclearu hready.unfrozen)
    (hcleari hready.indexed) fun s hs => (hfits s hs).reindexed hclear
  obtain ⟨stats, q', hdone, hre, _, hindexed⟩ :=
    assignLookups_spec h hready.unfrozen hready.indexed arrayIndexing
  have hq' : q' = q.electMasters := by
    rw [assignLookups, hplan] at hdone
    simp only [hrecord] at hdone
    cases hdone
    rfl
  subst hq'
  refine ⟨stats, _, hdone, hre, hindexed, fun o ho => ?_, fun c k hk => ?_⟩
  · obtain ⟨lookups, hlookups⟩ := hre.occurrence? (h.occurrence?_id ho)
    have hmap := hq.lookups o.id _ hlookups
    rw [List.nil_append, h.filter_plan arrayIndexing ho] at hmap
    exact ⟨lookups, hlookups, hmap⟩
  · simp only [electMasters, constraint?, List.getElem?_map] at hk
    obtain ⟨k', hk', rfl⟩ := Option.map_eq_some_iff.mp hk
    exact ((hq.enrolled c k' hk').electMaster (hq.unelected c k' hk') k'.mayBeStored).symm

theorem assigned_of_done {steps : List BuildStep} {arrayIndexing : Bool} {stats : LookupStats}
    (h : (build steps).assignLookups arrayIndexing = .done stats q) :
    (build steps).Assigned q arrayIndexing := by
  obtain ⟨_, _, hdone, hq⟩ := build_assigned steps arrayIndexing
  rw [h] at hdone
  obtain ⟨_, rfl⟩ := Outcome.done.inj hdone
  exact hq

/-- Some active occurrence searches for an occurrence of the constraint along the path. -/
def Searched (q : Program) (c : ConstraintId) (path : AccessPath) (id : OccurrenceId) : Prop :=
  ∃ u, q.occurrence? id = some u ∧ u.constraint = c ∧
    ∃ o ∈ q.active, ∃ l ∈ o.lookups, l.partner = id ∧ l.path = path

/-- The lookup of an active occurrence for a partner goes along the path that
the bound positions decide. -/
def Seeks (p : Program) (o u : Occurrence) (l : Lookup) : Prop :=
  l.partner = u.id ∧ ∃ k, p.constraint? u.constraint = some k ∧ k.Chooses (p.BoundAt o u) l.path

theorem forall₂_of_map_eq {α β γ δ : Type} {f : β → δ} {g : γ → δ} {R : α → β → Prop}
    {S : α → γ → Prop} {xs : List α} {ys : List β} {zs : List γ} (h : List.Forall₂ R xs ys)
    (he : zs.map g = ys.map f) (hS : ∀ x y z, R x y → g z = f y → S x z) :
    List.Forall₂ S xs zs := by
  induction h generalizing zs with
  | nil =>
    rw [List.map_eq_nil_iff.mp he]
    exact .nil
  | cons hxy _ ih =>
    obtain ⟨z, zs, rfl, hz, hzs⟩ := List.map_eq_cons_iff.mp he
    exact .cons (hS _ _ _ hxy hz) (ih hzs)

namespace Assigned

variable {arrayIndexing : Bool}

theorem lookups_of_active (h : p.Assigned q arrayIndexing) {o : Occurrence} (ho : o ∈ p.active) :
    ∃ lookups, q.occurrence? o.id = some { o with lookups } ∧
      lookups.map Lookup.request = (p.planOf arrayIndexing o).map Search.request := by
  obtain ⟨lookups, hq, hmap⟩ := h.lookups o (List.mem_of_mem_filter ho)
  rw [if_pos ho] at hmap
  exact ⟨lookups, hq, hmap⟩

theorem seeks (h : p.Assigned q arrayIndexing) (hp : p.WellFormed) {o : Occurrence}
    (ho : o ∈ p.active) :
    ∃ lookups us, q.occurrence? o.id = some { o with lookups } ∧ (∀ u, u ∈ us ↔ p.Partner o u) ∧
      us.Pairwise Occurrence.Precedes ∧ List.Forall₂ (p.Seeks o) us lookups := by
  obtain ⟨lookups, hq, hmap⟩ := h.lookups_of_active ho
  obtain ⟨_, us, hus, hord, hall⟩ :=
    hp.occurrencePlan?_plans arrayIndexing (List.mem_of_mem_filter ho)
  refine ⟨lookups, us, hq, hus, hord, forall₂_of_map_eq hall hmap fun u s l hs hls => ?_⟩
  obtain ⟨hpartner, hpath⟩ := Lookup.eq_of_request_eq hls
  exact ⟨hpartner.trans hs.partner_eq, hpath ▸ hs.chosen⟩

theorem exists_active (h : p.Assigned q arrayIndexing) (hp : p.WellFormed) {o : Occurrence}
    (ho : o ∈ q.active) :
    ∃ o' ∈ p.active, ∃ lookups, o = { o' with lookups } ∧
      lookups.map Lookup.request = (p.planOf arrayIndexing o').map Search.request := by
  obtain ⟨hmem, hactive⟩ := List.mem_filter.mp ho
  obtain ⟨i, hi⟩ := List.mem_iff_getElem?.mp hmem
  obtain ⟨o', ho', he⟩ := getElem?_of_map_eq h.reindexed.occurrences_eq hi
  have hpo : o' ∈ p.active :=
    List.mem_filter.mpr ⟨List.mem_of_getElem? ho', (congrArg Occurrence.isActive he).trans hactive⟩
  obtain ⟨lookups, hlookups, hmap⟩ := h.lookups_of_active hpo
  have hget : q.occurrence? o'.id = some o := by
    rw [hp.occurrence_id i o' ho']
    exact hi
  rw [hget] at hlookups
  exact ⟨o', hpo, lookups, Option.some.inj hlookups, hmap⟩

theorem mem_members_iff (h : p.Assigned q arrayIndexing) (hp : p.WellFormed) {k : Constraint}
    (hk : k ∈ q.constraints) {c : Category} (hc : c ∈ k.categories.list) {id : OccurrenceId} :
    id ∈ c.members ↔ q.Searched k.id c.path id := by
  have hq : q.WellFormed := hp.of_bare_eq h.reindexed.bare_eq
  rw [(h.categories k.id k (hq.constraint?_id hk)).2.mem_members c hc]
  simp only [List.mem_map, List.mem_filter, List.mem_flatMap, decide_eq_true_eq, Search.entry,
    Prod.mk.injEq]
  constructor
  · rintro ⟨s, ⟨⟨o, ho, hs⟩, htarget⟩, hpath, hid⟩
    obtain ⟨u, hu, hplans⟩ := hp.plans_of_mem (List.mem_of_mem_filter ho) hs
    obtain ⟨lookups, hlookups, hmap⟩ := h.lookups_of_active ho
    obtain ⟨l, hl, hls⟩ := List.mem_map.mp (hmap ▸ List.mem_map_of_mem hs)
    obtain ⟨further, hu', _⟩ := h.lookups u hu.mem
    rw [← hid, ← hpath]
    refine ⟨{ u with lookups := further }, hplans.partner_eq.symm ▸ hu',
      hplans.target_eq.symm.trans htarget,
      { o with lookups }, ?_, l, hl, Lookup.eq_of_request_eq hls⟩
    exact List.mem_filter.mpr ⟨List.mem_of_getElem? hlookups, (List.mem_filter.mp ho).2⟩
  · rintro ⟨u, hu, huk, o, ho, l, hl, hid, hpath⟩
    obtain ⟨o', ho', lookups, rfl, hmap⟩ := h.exists_active hp ho
    obtain ⟨s, hs, hls⟩ := List.mem_map.mp (hmap ▸ List.mem_map_of_mem hl)
    obtain ⟨hpartner, hpath'⟩ := Lookup.eq_of_request_eq hls.symm
    obtain ⟨u', hu', hplans⟩ := hp.plans_of_mem (List.mem_of_mem_filter ho') hs
    obtain ⟨_, hlookups, _⟩ := h.lookups u' hu'.mem
    -- the partner that the plan names is the one that the lookup names, so its
    -- constraint is the target
    rw [← hplans.partner_eq, ← hpartner, hid, hu] at hlookups
    refine ⟨s, ⟨⟨o', ho', hs⟩, ?_⟩, hpath'.symm.trans hpath, hpartner.symm.trans hid⟩
    rw [hplans.target_eq, ← huk, Option.some.inj hlookups]

end Assigned

/-- Indexing gives an active occurrence one lookup per partner, in join order, and a constraint
one category per path that is searched, with one master. -/
theorem assignLookups_consistent (steps : List BuildStep) (arrayIndexing : Bool) : ∃ stats q,
    (build steps).assignLookups arrayIndexing = .done stats q ∧ (build steps).Reindexed q ∧
    (∀ o ∈ (build steps).occurrences, ∃ lookups, q.occurrence? o.id = some { o with lookups } ∧
      (o.isActive = false → lookups = []) ∧
      (o.isActive = true → ∃ us, (∀ u, u ∈ us ↔ (build steps).Partner o u) ∧
        us.Pairwise Occurrence.Precedes ∧
        List.Forall₂ ((build steps).Seeks o) us lookups)) ∧
    q.Indexed ∧
    ∀ k ∈ q.constraints, k.categories.paths.Nodup ∧ k.categories.Headed k.mayBeStored ∧
      ∀ c ∈ k.categories.list, c.members.Nodup ∧ ∀ id, id ∈ c.members ↔
        q.Searched k.id c.path id := by
  have hp := build_wellFormed steps
  obtain ⟨stats, q, hdone, h⟩ := build_assigned steps arrayIndexing
  have hq : q.WellFormed := hp.of_bare_eq h.reindexed.bare_eq
  refine ⟨stats, q, hdone, h.reindexed, fun o ho => ?_, h.indexed, fun k hk => ?_⟩
  · obtain ⟨lookups, hlookups, hmap⟩ := h.lookups o ho
    refine ⟨lookups, hlookups, fun hno => ?_, fun hactive => ?_⟩
    · rw [if_neg fun ho => by simp [(List.mem_filter.mp ho).2] at hno] at hmap
      simpa using hmap
    · obtain ⟨lookups', us, hlookups', hus⟩ := h.seeks hp (List.mem_filter.mpr ⟨ho, hactive⟩)
      rw [hlookups] at hlookups'
      cases hlookups'
      exact ⟨us, hus⟩
  · obtain ⟨hheaded, henrolled⟩ := h.categories k.id k (hq.constraint?_id hk)
    exact ⟨henrolled.nodup_paths, hheaded, fun c hc =>
      ⟨henrolled.nodup_members c hc, fun id => h.mem_members_iff hp hk hc⟩⟩

end Program

end ConstraintRules
