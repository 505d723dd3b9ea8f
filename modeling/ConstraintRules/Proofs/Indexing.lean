import ConstraintRules.Proofs.Categories
import ConstraintRules.Proofs.Building
import ConstraintRules.Pass.Indexing

/-! Indexing writes lookups and categories alone, and each lookup gets the
category of its path. -/

namespace ConstraintRules

def Constraint.unindexed (k : Constraint) : Constraint := { k with categories := .empty }

def Occurrence.unindexed (o : Occurrence) : Occurrence := { o with lookups := [] }

namespace Program

/-- The programs differ in lookups and categories only, and the categories
of `p` keep their numbers. -/
structure Reindexed (p q : Program) : Prop where
  symbols_eq : q.symbols = p.symbols
  rules_eq : q.rules = p.rules
  constraints_eq : q.constraints.map Constraint.unindexed = p.constraints.map Constraint.unindexed
  occurrences_eq : q.occurrences.map Occurrence.unindexed = p.occurrences.map Occurrence.unindexed
  paths : ∀ (c : ConstraintId) (k k' : Constraint), p.constraint? c = some k →
    q.constraint? c = some k' →
    k.categories.paths <+: k'.categories.paths

/-- No category of the program has been read. -/
def Unfrozen (p : Program) : Prop := ∀ k ∈ p.constraints, k.categories.Unfrozen

/-- The lookup's category belongs to the constraint of its partner and has the lookup's path. -/
def Resolves (p : Program) (l : Lookup) : Prop :=
  ∃ u k, p.occurrence? l.partner = some u ∧ p.constraint? u.constraint = some k ∧
    k.categories.paths[l.category.index]? = some l.path

def Indexed (p : Program) : Prop := ∀ o ∈ p.occurrences, ∀ l ∈ o.lookups, p.Resolves l

def Seated (p : Program) : Prop := ∀ k ∈ p.constraints, k.categories.Seated

namespace Reindexed

variable {p q s : Program}

theorem refl (p : Program) : p.Reindexed p where
  symbols_eq := rfl
  rules_eq := rfl
  constraints_eq := rfl
  occurrences_eq := rfl
  paths c k k' hk hk' := by
    rw [hk] at hk'
    cases hk'
    exact List.prefix_rfl

theorem constraint? (h : p.Reindexed q) {c : ConstraintId} {k : Constraint}
    (hk : p.constraint? c = some k) :
    ∃ cs, q.constraint? c = some { k with categories := cs } ∧ k.categories.paths <+: cs.paths := by
  obtain ⟨k', hk', he⟩ := getElem?_of_map_eq h.constraints_eq.symm hk
  have hpaths := h.paths c k k' hk hk'
  refine ⟨k'.categories, ?_, hpaths⟩
  have heq : k' = { k with categories := k'.categories } := by
    cases k
    cases k'
    cases he
    rfl
  rw [← heq]
  exact hk'

theorem occurrence? (h : p.Reindexed q) {o : OccurrenceId} {u : Occurrence}
    (hu : p.occurrence? o = some u) :
    ∃ ls, q.occurrence? o = some { u with lookups := ls } := by
  obtain ⟨u', hu', he⟩ := getElem?_of_map_eq h.occurrences_eq.symm hu
  refine ⟨u'.lookups, ?_⟩
  have heq : u' = { u with lookups := u'.lookups } := by
    cases u
    cases u'
    cases he
    rfl
  rw [← heq]
  exact hu'

theorem trans (h : p.Reindexed q) (h' : q.Reindexed s) : p.Reindexed s where
  symbols_eq := h'.symbols_eq.trans h.symbols_eq
  rules_eq := h'.rules_eq.trans h.rules_eq
  constraints_eq := h'.constraints_eq.trans h.constraints_eq
  occurrences_eq := h'.occurrences_eq.trans h.occurrences_eq
  paths c k k' hk hk' := by
    obtain ⟨cs, hcs, hgrown⟩ := h.constraint? hk
    exact hgrown.trans (h'.paths c _ k' hcs hk')

theorem bare_eq (h : p.Reindexed q) : q.bare = p.bare := by
  have hc := congrArg (List.map Constraint.bare) h.constraints_eq
  have ho := congrArg (List.map Occurrence.bare) h.occurrences_eq
  rw [List.map_map, List.map_map] at hc ho
  have hc' : q.constraints.map Constraint.bare = p.constraints.map Constraint.bare := hc
  have ho' : q.occurrences.map Occurrence.bare = p.occurrences.map Occurrence.bare := ho
  simp only [bare, hc', ho', h.rules_eq, h.symbols_eq]

theorem resolves (h : p.Reindexed q) {l : Lookup} (hl : p.Resolves l) : q.Resolves l := by
  obtain ⟨u, k, hu, hk, hpath⟩ := hl
  obtain ⟨ls, hu'⟩ := h.occurrence? hu
  obtain ⟨cs, hk', hgrown⟩ := h.constraint? hk
  exact ⟨_, _, hu', hk', getElem?_of_isPrefix hgrown hpath⟩

end Reindexed

end Program

/-- The search goes from an active occurrence of the program to an occurrence of its target. -/
structure Search.Fits (s : Search) (p : Program) : Prop where
  active : ∃ o, p.occurrence? s.active = some o ∧ o.isActive = true
  partner : ∃ u, p.occurrence? s.partner = some u ∧ u.constraint = s.target
  target : ∃ k, p.constraint? s.target = some k

theorem Search.Fits.reindexed {s : Search} {p q : Program} (h : s.Fits p) (hpq : p.Reindexed q) :
    s.Fits q where
  active := by
    obtain ⟨o, ho, ha⟩ := h.active
    obtain ⟨ls, ho'⟩ := hpq.occurrence? ho
    exact ⟨_, ho', ha⟩
  partner := by
    obtain ⟨u, hu, hc⟩ := h.partner
    obtain ⟨ls, hu'⟩ := hpq.occurrence? hu
    exact ⟨_, hu', hc⟩
  target := by
    obtain ⟨k, hk⟩ := h.target
    obtain ⟨cs, hk', _⟩ := hpq.constraint? hk
    exact ⟨_, hk'⟩

namespace Program

variable {p : Program}

theorem Arranged.guardOf?_eq_some (h : p.Arranged) {q : Occurrence} {r : Rule}
    (hq : q ∈ p.occurrences) (hr : p.rule? q.rule = some r) :
    ∃ guard, r.guardOf? q.head = some guard := by
  cases hpart : q.head with
  | positive => exact ⟨r.guard, rfl⟩
  | negative n =>
    obtain ⟨r', hr', hplace⟩ := h.placed q hq
    rw [hr] at hr'
    cases hr'
    cases hn : r.negatives[n]? with
    | none => simp [Rule.part, hpart, hn] at hplace
    | some head => exact ⟨r.guard ++ head.guard, by simp [Rule.guardOf?, hn]⟩

theorem Arranged.searches?_eq_some (h : p.Arranged) {r : Rule} (link : Option HeadLink)
    {o : Occurrence} (ho : o ∈ p.active) (hr : p.rule? o.rule = some r) (bound : List VarId)
    (qs : List Occurrence) (hqs : ∀ q ∈ qs, q ∈ p.occurrences ∧ q.rule = o.rule) :
    ∃ plan, p.searches? r link o bound qs = some plan ∧ ∀ s ∈ plan, s.Fits p ∧ s.active = o.id := by
  induction qs generalizing bound with
  | nil => exact ⟨[], rfl, by simp⟩
  | cons q qs ih =>
    obtain ⟨hq, hqr⟩ := hqs q List.mem_cons_self
    obtain ⟨guard, hguard⟩ := h.guardOf?_eq_some hq (hqr ▸ hr)
    obtain ⟨c, hc, _⟩ := h.declared q hq
    obtain ⟨plan, hplan, hfits⟩ :=
      ih (bound ++ q.args) fun q' hq' => hqs q' (List.mem_cons_of_mem _ hq')
    refine ⟨_,
      by simp only [searches?, hguard, hc, hplan, Option.bind_eq_bind, Option.bind_some]; rfl, ?_⟩
    intro s hs
    rcases List.mem_cons.mp hs with rfl | hs
    · have hactive := List.mem_filter.mp ho
      exact ⟨⟨⟨o, h.occurrence?_id hactive.1, hactive.2⟩, ⟨q, h.occurrence?_id hq, rfl⟩, ⟨c, hc⟩⟩,
        rfl⟩
    · exact hfits s hs

theorem Arranged.occurrencePlan?_eq_some (h : p.Arranged) (arrayIndexing : Bool) {o : Occurrence}
    (ho : o ∈ p.active) :
    ∃ plan, p.occurrencePlan? arrayIndexing o = some plan ∧
      ∀ s ∈ plan, s.Fits p ∧ s.active = o.id := by
  have hmem := (List.mem_filter.mp ho).1
  obtain ⟨r, hr, hrule, _⟩ := h.rule_mem hmem
  obtain ⟨head, hhead, _, _⟩ := h.resolve?_eq_some hr fun id hid => List.mem_append_left _ hid
  obtain ⟨ids, qs, hids, hqs, hiff⟩ := h.partners_eq hmem
  have hpartners : ∀ q ∈ qs, q ∈ p.occurrences ∧ q.rule = o.rule := fun q hq => by
    have := (hiff q).mp hq
    exact ⟨this.1, this.2.1⟩
  simp only [occurrencePlan?, hrule, hhead, hids, hqs, Option.bind_eq_bind, Option.bind_some]
  exact h.searches?_eq_some _ ho hrule _ qs hpartners

theorem Arranged.searchPlan?_eq_some (h : p.Arranged) (arrayIndexing : Bool) :
    ∃ plan, p.searchPlan? arrayIndexing = some plan ∧ ∀ s ∈ plan, s.Fits p := by
  have hone : ∀ o ∈ p.active, ∃ plan, p.occurrencePlan? arrayIndexing o = some plan := fun o ho =>
    (h.occurrencePlan?_eq_some arrayIndexing ho).imp fun _ hplan => hplan.1
  obtain ⟨plans, hplans, _, hmem⟩ := exists_mapM_eq_some hone
  refine ⟨plans.flatten, by rw [searchPlan?, hplans, Option.map_some], fun s hs => ?_⟩
  obtain ⟨plan, hplan, hsplan⟩ := List.mem_flatten.mp hs
  obtain ⟨o, ho, heq⟩ := (hmem plan).mp hplan
  obtain ⟨plan', heq', hfits⟩ := h.occurrencePlan?_eq_some arrayIndexing ho
  rw [heq] at heq'
  cases heq'
  exact (hfits s hsplan).1

theorem Resolves.path_eq (h : p.WellFormed) {l : Lookup} (hl : p.Resolves l) {u : Occurrence}
    {k : Constraint} (hu : u ∈ p.occurrences) (hpartner : l.partner = u.id)
    (hk : p.constraint? u.constraint = some k) :
    k.categories.paths[l.category.index]? = some l.path := by
  obtain ⟨u', k', hu', hk', hpath⟩ := hl
  rw [hpartner, h.occurrence?_id hu] at hu'
  cases hu'
  rw [hk] at hk'
  cases hk'
  exact hpath

theorem Unfrozen.constraint? (h : p.Unfrozen) {c : ConstraintId} {k : Constraint}
    (hk : p.constraint? c = some k) :
    k.categories.Unfrozen :=
  h k (List.mem_of_getElem? hk)

theorem constraint?_modify (p : Program) (c d : ConstraintId) (f : Constraint → Constraint) :
    (p.modifyConstraint c f).constraint? d =
      (p.constraint? d).map fun k => if c = d then f k else k := by
  have hcd : c.index = d.index ↔ c = d := by
    cases c
    cases d
    simp
  simp only [modifyConstraint, constraint?, List.getElem?_modify, hcd]
  rfl

/-- The program with new categories for one constraint and a further lookup for one occurrence. -/
def withLookup (p : Program) (s : Search) (id : CategoryId) (cs : Categories) : Program :=
  (p.modifyConstraint s.target fun c => { c with categories := cs }).modifyOccurrence s.active
    fun o => { o with lookups := o.lookups ++ [⟨s.partner, s.path, id, s.direct⟩] }

theorem record_eq (p : Program) (s : Search) : p.record s = match p.constraint? s.target with
    | none => .ok p
    | some k =>
      (k.categories.enter s.path s.partner).map fun entered =>
        p.withLookup s entered.1 entered.2 := by
  rw [record]
  cases p.constraint? s.target with
  | none => rfl
  | some k =>
    simp only
    cases k.categories.enter s.path s.partner <;> rfl

theorem withLookup_reindexed {s : Search} {k : Constraint} (hk : p.constraint? s.target = some k)
    (id : CategoryId) {cs : Categories} (hcs : k.categories.paths <+: cs.paths) :
    p.Reindexed (p.withLookup s id cs) where
  symbols_eq := rfl
  rules_eq := rfl
  constraints_eq := map_modify_eq fun _ _ => rfl
  occurrences_eq := map_modify_eq fun _ _ => rfl
  paths c l l' hl hl' := by
    have hget := p.constraint?_modify s.target c fun c => { c with categories := cs }
    rw [hl, show (p.modifyConstraint s.target _).constraint? c = some l' from hl', Option.map_some]
      at hget
    by_cases hc : s.target = c
    · subst hc
      rw [hk] at hl
      cases hl
      rw [if_pos rfl] at hget
      cases hget
      exact hcs
    · rw [if_neg hc] at hget
      cases hget
      exact List.prefix_rfl

theorem record_cases {s : Search} (hs : s.Fits p) : (∃ k id cs, p.constraint? s.target = some k ∧
    k.categories.enter s.path s.partner = .ok (id, cs) ∧ p.record s = .ok (p.withLookup s id cs) ∧
      k.categories.paths <+: cs.paths ∧ cs.paths[id.index]? = some s.path ∧
      cs.masterId = k.categories.masterId ∧ (k.categories.Unfrozen → cs.Unfrozen)) ∨
    (p.record s = .error (.frozen s.path) ∧ ¬p.Unfrozen) := by
  obtain ⟨k, hk⟩ := hs.target
  rcases k.categories.enter_cases s.path s.partner with ⟨id, cs, henter, hspec⟩ | ⟨henter, hfrozen⟩
  · exact Or.inl ⟨k, id, cs, hk, henter, by simp only [record, hk, henter]; rfl, hspec⟩
  · exact Or.inr ⟨by simp only [record, hk, henter], fun hu => hfrozen (hu.constraint? hk)⟩

theorem record_eq_ok (hu : p.Unfrozen) {s : Search} (hs : s.Fits p) :
    ∃ k id cs, p.constraint? s.target = some k ∧
    k.categories.enter s.path s.partner = .ok (id, cs) ∧
      p.record s = .ok (p.withLookup s id cs) := by
  rcases record_cases hs with ⟨k, id, cs, hk, henter, hrecord, _⟩ | ⟨_, hfrozen⟩
  · exact ⟨k, id, cs, hk, henter, hrecord⟩
  · exact absurd hu hfrozen

/-- What indexing keeps while it writes. -/
structure Carries (p q : Program) : Prop where
  reindexed : p.Reindexed q
  unfrozen : p.Unfrozen → q.Unfrozen
  indexed : p.Indexed → q.Indexed
  seated : p.Seated → q.Seated

theorem Carries.trans {q t : Program} (h : p.Carries q) (h' : q.Carries t) : p.Carries t where
  reindexed := h.reindexed.trans h'.reindexed
  unfrozen hu := h'.unfrozen (h.unfrozen hu)
  indexed hi := h'.indexed (h.indexed hi)
  seated hm := h'.seated (h.seated hm)

theorem withLookup_carries {s : Search} (hs : s.Fits p) {k : Constraint}
    (hk : p.constraint? s.target = some k) {id : CategoryId} {cs : Categories}
    (hgrown : k.categories.paths <+: cs.paths) (hpath : cs.paths[id.index]? = some s.path)
    (hmaster : cs.masterId = k.categories.masterId) (hcs : k.categories.Unfrozen → cs.Unfrozen) :
    p.Carries (p.withLookup s id cs) := by
  have hre := withLookup_reindexed hk id hgrown
  have hcategories : ∀ {P : Categories → Prop}, P cs → (∀ l ∈ p.constraints, P l.categories) →
      ∀ l ∈ (p.withLookup s id cs).constraints, P l.categories := by
    intro P hP hall l hl
    obtain ⟨i, hi⟩ := List.mem_iff_getElem?.mp hl
    simp only [withLookup, modifyConstraint, modifyOccurrence, List.getElem?_modify] at hi
    obtain ⟨l', hl', rfl⟩ := Option.map_eq_some_iff.mp hi
    by_cases ht : s.target.index = i
    · simpa [ht] using hP
    · simpa [ht] using hall l' (List.mem_of_getElem? hl')
  refine ⟨hre, fun hu => hcategories (hcs (hu.constraint? hk)) hu, fun hi => ?_, fun hm => ?_⟩
  · -- the new lookup stands last; the others resolve as before, since categories keep their numbers
    intro o ho l hl
    obtain ⟨i, hget⟩ := List.mem_iff_getElem?.mp ho
    simp only [withLookup, modifyConstraint, modifyOccurrence, List.getElem?_modify] at hget
    obtain ⟨o', ho', rfl⟩ := Option.map_eq_some_iff.mp hget
    have hold : ∀ l ∈ o'.lookups, (p.withLookup s id cs).Resolves l := fun l hl =>
      hre.resolves (hi o' (List.mem_of_getElem? ho') l hl)
    by_cases ha : s.active.index = i
    · simp only [ha, if_true] at hl
      rcases List.mem_append.mp hl with hl | hl
      · exact hold l hl
      · rw [List.mem_singleton.mp hl]
        obtain ⟨u, hpartner, htarget⟩ := hs.partner
        obtain ⟨ls, hpartner'⟩ := hre.occurrence? hpartner
        have hnew : (p.withLookup s id cs).constraint? s.target =
            some { k with categories := cs } := by
          have hget := p.constraint?_modify s.target s.target fun c => { c with categories := cs }
          rw [hk, Option.map_some, if_pos rfl] at hget
          exact hget
        exact ⟨_, _, hpartner', htarget ▸ hnew, hpath⟩
    · simp only [ha, if_false] at hl
      exact hold l hl
  · exact hcategories ((hm k (List.mem_of_getElem? hk)).of_isPrefix hmaster hgrown) hm

theorem record_spec (hu : p.Unfrozen) (hi : p.Indexed) {s : Search} (hs : s.Fits p) :
    ∃ q, p.record s = .ok q ∧ p.Reindexed q ∧ q.Unfrozen ∧ q.Indexed := by
  rcases record_cases hs
    with ⟨k, id, cs, hk, _, hrecord, hgrown, hpath, hmaster, hcs⟩ | ⟨_, hfrozen⟩
  · have h := withLookup_carries hs hk hgrown hpath hmaster hcs
    exact ⟨_, hrecord, h.reindexed, h.unfrozen hu, h.indexed hi⟩
  · exact absurd hu hfrozen

/-- Recording a plan goes on to the end or to a frozen category, and what it has
written by then is in order. -/
theorem recordAll_cases {plan : List Search} (hplan : ∀ s ∈ plan, s.Fits p) : ∃ q, p.Carries q ∧
    (p.recordAll plan = (none, q) ∨ (∃ path, p.recordAll plan = (some (.frozen path), q)) ∧
      ¬p.Unfrozen) := by
  induction plan generalizing p with
  | nil => exact ⟨p, ⟨.refl p, fun h => h, fun h => h, fun h => h⟩, Or.inl rfl⟩
  | cons s rest ih =>
    have hs := hplan s List.mem_cons_self
    rcases record_cases hs
      with ⟨k, id, cs, hk, _, hrecord, hgrown, hpath, hmaster, hcs⟩ | ⟨hrecord, hfrozen⟩
    · have hpq := withLookup_carries hs hk hgrown hpath hmaster hcs
      obtain ⟨t, hqt, hrest⟩ :=
        ih fun s' hs' => (hplan s' (List.mem_cons_of_mem _ hs')).reindexed hpq.reindexed
      refine ⟨t, hpq.trans hqt, ?_⟩
      rw [recordAll, hrecord]
      rcases hrest with hrest | ⟨hrest, hfrozen⟩
      · exact Or.inl hrest
      · exact Or.inr ⟨hrest, fun hu => hfrozen (hpq.unfrozen hu)⟩
    · refine ⟨p, ⟨.refl p, fun h => h, fun h => h, fun h => h⟩, Or.inr ⟨⟨s.path, ?_⟩, hfrozen⟩⟩
      rw [recordAll, hrecord]

theorem recordAll_spec (hu : p.Unfrozen) (hi : p.Indexed) {plan : List Search}
    (hplan : ∀ s ∈ plan, s.Fits p) :
    ∃ q, p.recordAll plan = (none, q) ∧ p.Reindexed q ∧ q.Unfrozen ∧ q.Indexed := by
  obtain ⟨q, h, hdone | ⟨_, hfrozen⟩⟩ := recordAll_cases hplan
  · exact ⟨q, hdone, h.reindexed, h.unfrozen hu, h.indexed hi⟩
  · exact absurd hu hfrozen

theorem clearLookups_carries (p : Program) : p.Carries p.clearLookups := by
  have hre : p.Reindexed p.clearLookups := by
    refine ⟨rfl, rfl, rfl, ?_, (Reindexed.refl p).paths⟩
    rw [clearLookups, List.map_map]
    apply List.map_congr_left
    intro o _
    by_cases ha : o.isActive = true
    · simp [ha, Occurrence.unindexed]
    · simp [ha]
  refine ⟨hre, fun h => h, fun h o ho l hl => ?_, fun h => h⟩
  obtain ⟨o', ho', rfl⟩ := List.mem_map.mp ho
  by_cases ha : o'.isActive = true
  · simp [ha] at hl
  · rw [if_neg ha] at hl
    exact hre.resolves (h o' ho' l hl)

theorem electMasters_carries (p : Program) : p.Carries p.electMasters := by
  have hre : p.Reindexed p.electMasters := by
    refine ⟨rfl, rfl, ?_, rfl, fun c k k' hk hk' => ?_⟩
    · rw [electMasters, List.map_map]
      rfl
    · have hget : p.electMasters.constraint? c =
          some { k with categories := (k.categories.electMaster k.mayBeStored).2 } := by
        simp only [constraint?] at hk
        simp only [electMasters, constraint?, List.getElem?_map, hk, Option.map_some]
      rw [hget] at hk'
      cases hk'
      exact (k.categories.electMaster_spec k.mayBeStored).1
  refine ⟨hre, fun h k hk => ?_, fun h o ho l hl => hre.resolves (h o ho l hl), fun _ k hk => ?_⟩
  · obtain ⟨k', hk', rfl⟩ := List.mem_map.mp hk
    exact (k'.categories.electMaster_spec k'.mayBeStored).2.1 (h k' hk')
  · obtain ⟨k', _, rfl⟩ := List.mem_map.mp hk
    exact (k'.categories.electMaster_spec k'.mayBeStored).2.2

theorem assignLookups_cases (h : p.Arranged) (arrayIndexing : Bool) : ∃ q, p.Carries q ∧
    ((∃ stats, p.assignLookups arrayIndexing = .done stats q) ∨
      (∃ path, p.assignLookups arrayIndexing = .failed (.lookup (.frozen path)) q) ∧
        ¬p.Unfrozen) := by
  obtain ⟨plan, hplan, hfits⟩ := h.searchPlan?_eq_some arrayIndexing
  have hclear := p.clearLookups_carries
  obtain ⟨q, hpq, hdone | ⟨⟨path, hfailed⟩, hfrozen⟩⟩ := recordAll_cases fun s hs =>
    (hfits s hs).reindexed hclear.reindexed
  · refine ⟨q.electMasters, (hclear.trans hpq).trans q.electMasters_carries,
      Or.inl ⟨.ofPlan plan q.electMasters.categoryCount, ?_⟩⟩
    rw [assignLookups, hplan]
    simp only [hdone]
  · refine ⟨q, hclear.trans hpq, Or.inr ⟨⟨path, ?_⟩, fun hu => hfrozen (hclear.unfrozen hu)⟩⟩
    rw [assignLookups, hplan]
    simp only [hfailed]

theorem assignLookups_spec (h : p.WellFormed) (hu : p.Unfrozen) (hi : p.Indexed)
    (arrayIndexing : Bool) :
    ∃ stats q, p.assignLookups arrayIndexing = .done stats q ∧ p.Reindexed q ∧ q.Unfrozen ∧
      q.Indexed := by
  obtain ⟨q, hq, ⟨stats, hdone⟩ | ⟨_, hfrozen⟩⟩ := assignLookups_cases h.toArranged arrayIndexing
  · exact ⟨stats, q, hdone, hq.reindexed, hq.unfrozen hu, hq.indexed hi⟩
  · exact absurd hu hfrozen

end Program

end ConstraintRules
