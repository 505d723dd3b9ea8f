import ConstraintRules.Proofs.Enrolment
import ConstraintRules.Proofs.HistoryExact

/-! Frozen categories. History freezes those that it reads, and indexing stops
where it has to enter one of them. -/

namespace ConstraintRules

open Activation

namespace Categories

variable {cs ds : Categories} {path : AccessPath}

/-- The path has a category, and it is frozen. -/
def Barred (cs : Categories) (path : AccessPath) : Prop :=
  ∃ id c, cs.find? path = some id ∧ cs.get? id = some c ∧ c.frozen = true

theorem get?_of_find? {id : CategoryId} (h : cs.find? path = some id) :
    ∃ c, cs.get? id = some c ∧ c.path = path := by
  have hid := getElem?_paths_of_find? h
  rw [getElem?_paths] at hid
  exact Option.map_eq_some_iff.mp hid

theorem find?_eq_of_paths_eq (h : ds.paths = cs.paths) (path : AccessPath) :
    ds.find? path = cs.find? path := by
  have hfind : ∀ es : Categories,
      es.find? path = (es.paths.findIdx? fun q => q = path).map CategoryId.mk := fun es => by
    rw [find?, paths, List.findIdx?_map]
    rfl
  rw [hfind, hfind, h]

theorem enter_of_barred (h : cs.Barred path) (o : OccurrenceId) :
    cs.enter path o = .error (.frozen path) := by
  obtain ⟨id, c, hfind, hget, hfrozen⟩ := h
  obtain ⟨c', hget', hpath⟩ := get?_of_find? hfind
  rw [hget] at hget'
  cases hget'
  simp only [enter, ensure, hfind, enroll, get, hget, Category.enroll, hfrozen, if_true,
    hpath, Except.map]

/-- A search whose category is not frozen is entered, and what was barred stays barred. -/
theorem enter_of_not_barred (h : ¬cs.Barred path) (o : OccurrenceId) :
    ∃ id ds, cs.enter path o = .ok (id, ds) ∧ ∀ other, cs.Barred other → ds.Barred other := by
  cases hf : cs.find? path with
  | some id =>
    obtain ⟨c, hget, _⟩ := get?_of_find? hf
    have hfrozen : c.frozen = false := by
      rw [Bool.eq_false_iff]
      exact fun htrue => h ⟨id, c, hf, hget, htrue⟩
    have hpaths : (cs.modify id fun _ => c.withMember o).paths = cs.paths :=
      paths_modify cs id _ fun d hd => by
        rw [hget] at hd
        cases hd
        rfl
    refine ⟨id, _, enter_of_find? hf hget hfrozen o, ?_⟩
    rintro other ⟨i, d, hfind, hd, htrue⟩
    refine ⟨i, d, (find?_eq_of_paths_eq hpaths other).trans hfind, ?_, htrue⟩
    -- the category that was entered is not the frozen one
    have hne : i ≠ id := fun he => by
      rw [he, hget] at hd
      cases hd
      rw [hfrozen] at htrue
      cases htrue
    rw [get?_modify, hd, Option.map_some, if_neg hne]
  | none =>
    refine ⟨⟨cs.size⟩, _, enter_of_find?_none hf o, ?_⟩
    rintro other ⟨i, d, hfind, hd, htrue⟩
    obtain ⟨j, hj, rfl⟩ := Option.map_eq_some_iff.mp hfind
    have hlt := (List.getElem?_eq_some_iff.mp hd).1
    refine ⟨⟨j⟩, d, ?_, ?_, htrue⟩
    · rw [find?, List.findIdx?_append, hj]
      rfl
    · rw [get?, List.getElem?_append_left hlt]
      exact hd

end Categories

namespace Program

variable {p q : Program}

/-- The search has to enter a frozen category. -/
def Barred (p : Program) (s : Search) : Prop :=
  ∃ k, p.constraint? s.target = some k ∧ k.categories.Barred s.path

theorem record_of_barred {s : Search} (h : p.Barred s) : p.record s = .error (.frozen s.path) := by
  obtain ⟨k, hk, hbarred⟩ := h
  simp only [record_eq, hk, Categories.enter_of_barred hbarred, Except.map]

theorem record_of_not_barred {s : Search} (h : ¬p.Barred s) :
    ∃ q, p.record s = .ok q ∧ ∀ t, p.Barred t → q.Barred t := by
  cases hk : p.constraint? s.target with
  | none => exact ⟨p, by simp only [record_eq, hk], fun t ht => ht⟩
  | some k =>
    obtain ⟨id, cs, henter, hkept⟩ :=
      Categories.enter_of_not_barred (fun hb => h ⟨k, hk, hb⟩) s.partner
    refine ⟨p.withLookup s id cs, by simp only [record_eq, hk, henter, Except.map], ?_⟩
    rintro t ⟨k', hk', hbarred⟩
    have hget := p.constraint?_modify s.target t.target fun c => { c with categories := cs }
    rw [hk', Option.map_some] at hget
    refine ⟨_, hget, ?_⟩
    by_cases ht : s.target = t.target
    · rw [if_pos ht]
      rw [← ht, hk] at hk'
      cases hk'
      exact hkept t.path hbarred
    · rw [if_neg ht]
      exact hbarred

theorem recordAll_of_barred {plan : List Search} (h : ∃ s ∈ plan, p.Barred s) :
    ∃ path q, p.recordAll plan = (some (.frozen path), q) := by
  induction plan generalizing p with
  | nil =>
    obtain ⟨s, hs, _⟩ := h
    cases hs
  | cons s rest ih =>
    by_cases hs : p.Barred s
    · exact ⟨s.path, p, by rw [recordAll, record_of_barred hs]⟩
    · obtain ⟨q, hrecord, hkept⟩ := record_of_not_barred hs
      obtain ⟨t, ht, hbarred⟩ := h
      have hrest : t ∈ rest := by
        rcases List.mem_cons.mp ht with rfl | ht
        · exact absurd hbarred hs
        · exact ht
      obtain ⟨path, q', hfailed⟩ := ih ⟨t, hrest, hkept t hbarred⟩
      exact ⟨path, q', by rw [recordAll, hrecord]; exact hfailed⟩

theorem assignLookups_of_barred {arrayIndexing : Bool} {plan : List Search}
    (hplan : p.searchPlan? arrayIndexing = some plan) (h : ∃ s ∈ plan, p.Barred s) :
    ∃ path q, p.assignLookups arrayIndexing = .failed (.lookup (.frozen path)) q := by
  have hclear : ∃ s ∈ plan, p.clearLookups.Barred s := h
  obtain ⟨path, q, hfailed⟩ := recordAll_of_barred hclear
  exact ⟨path, q, by simp only [assignLookups, hplan, hfailed]⟩

def category? (p : Program) (c : ConstraintId) (id : CategoryId) : Option Category :=
  (p.constraint? c).bind fun k => k.categories.get? id

theorem category?_freezeCategories (p : Program) (reads : List (ConstraintId × CategoryId))
    (c : ConstraintId) (id : CategoryId) : (p.freezeCategories reads).category? c id =
      (p.category? c id).map fun d => if (c, id) ∈ reads then { d with frozen := true } else d := by
  induction reads generalizing p with
  | nil =>
    show p.category? c id = _
    simp
  | cons cc reads ih =>
    have hstep : (p.modifyConstraint cc.1 fun k =>
        { k with categories := k.categories.freeze cc.2 }).category? c id =
        (p.category? c id).map fun d => if (c, id) = cc then { d with frozen := true } else d := by
      rw [category?, category?, constraint?_modify]
      cases p.constraint? c with
      | none => rfl
      | some k =>
        by_cases hc : cc.1 = c
        · subst hc
          simp [Categories.freeze, Categories.get?_modify, Prod.ext_iff]
        · have hne : (c, id) ≠ cc := fun he => hc (congrArg Prod.fst he).symm
          simp [hc, hne]
    show (Program.freezeCategories _ reads).category? c id = _
    rw [ih, hstep, Option.map_map]
    congr 1
    funext d
    by_cases hcc : (c, id) = cc
    · by_cases hin : (c, id) ∈ reads <;> simp [hcc]
    · simp [hcc]

theorem Unfrozen.category? (h : p.Unfrozen) {c : ConstraintId} {id : CategoryId} {d : Category}
    (hd : p.category? c id = some d) : d.frozen = false := by
  obtain ⟨k, hk, hget⟩ := Option.bind_eq_some_iff.mp hd
  exact h.constraint? hk d (List.mem_of_getElem? hget)

section Reads

variable {s : Session} {elision : Bool} {o : Occurrence} {cc : ConstraintId × CategoryId}

theorem mem_readSingletons {us : List Occurrence} (h : cc ∈ (p.readSingletons o us).2) :
    ∃ u ∈ us, ∃ l d, o.lookup? u.id = some l ∧ cc = (u.constraint, l.category) ∧
      p.category? u.constraint l.category = some d := by
  induction us with
  | nil => cases h
  | cons u us ih =>
    cases hl : o.lookup? u.id with
    | none => simp [readSingletons, hl] at h
    | some l =>
      cases hk : p.constraint? u.constraint with
      | none => simp [readSingletons, hl, hk] at h
      | some k =>
        cases hd : k.categories.get? l.category with
        | none => simp [readSingletons, hl, hk, hd] at h
        | some d =>
          have hcategory : p.category? u.constraint l.category = some d := by
            rw [category?, hk]; exact hd
          have hmem : cc = (u.constraint, l.category) ∨ cc ∈ (p.readSingletons o us).2 := by
            by_cases hs : d.path.isSingleton u.arity = true
            · simpa [readSingletons, hl, hk, hd, hs] using h
            · left
              simpa [readSingletons, hl, hk, hd, hs] using h
          rcases hmem with rfl | hmem
          · exact ⟨u, List.mem_cons_self, l, d, hl, rfl, hcategory⟩
          · obtain ⟨v, hv, hrest⟩ := ih hmem
            exact ⟨v, List.mem_cons_of_mem _ hv, hrest⟩

theorem reads_verdict_subset (p : Program) (s : Session) (elision before : Bool) (o : Occurrence)
    (partners : List Occurrence) :
    (p.verdict s elision before o partners).reads ⊆ (p.readSingletons o partners).2 := by
  intro cc hcc
  simp only [verdict] at hcc
  split at hcc
  · cases hcc
  · split at hcc
    · cases hcc
    · split at hcc
      · exact hcc
      · cases hcc

theorem Judged.mem_reads {v : Verdict} (h : p.Judged s elision o v) (hp : p.WellFormed)
    (hcc : cc ∈ v.reads) :
    ∃ l ∈ o.lookups, ∃ u d, p.occurrence? l.partner = some u ∧ cc = (u.constraint, l.category) ∧
      p.category? u.constraint l.category = some d := by
  obtain ⟨r, ids, partners, before, _, _, _, _, hpartners, _, rfl⟩ := h
  obtain ⟨u, hu, l, d, hl, rfl, hd⟩ :=
    mem_readSingletons (reads_verdict_subset p s elision before o partners hcc)
  have hpartner : l.partner = u.id := by simpa using List.find?_some hl
  have hu' : some u ∈ ids.map p.occurrence? := by
    rw [mapM_eq_some_iff.mp hpartners]
    exact List.mem_map_of_mem hu
  obtain ⟨id, _, hid⟩ := List.mem_map.mp hu'
  refine ⟨l, List.mem_of_find?_eq_some hl, u, d, ?_, rfl, hd⟩
  rw [hpartner]
  exact hp.occurrence?_id (mem_occurrences_iff.mpr ⟨id, hid⟩)

end Reads

section History

theorem category?_spare (p : Program) (vs : List (OccurrenceId × Verdict)) (c : ConstraintId)
    (id : CategoryId) :
    (p.spare vs).category? c id = (p.category? c id).map fun d =>
      if (c, id) ∈ vs.flatMap fun v => v.2.reads then { d with frozen := true } else d := by
  rw [spare, category?_freezeCategories]
  rfl

variable {elision : Bool} {stats : HistoryStats}

theorem elideHistory_frozen (h : p.WellFormed) (hu : p.Unfrozen)
    (hdone : p.elideHistory elision = .done stats q) {c : ConstraintId} {id : CategoryId}
    {d : Category} (hd : q.category? c id = some d) (hfrozen : d.frozen = true) :
    ∃ o ∈ p.active, ∃ l ∈ o.lookups, ∃ u,
      p.occurrence? l.partner = some u ∧ u.constraint = c ∧ l.category = id := by
  obtain ⟨s, vs, t, _, _, hvs, ht, hdone'⟩ := elideHistory_eq h elision
  rw [hdone] at hdone'
  obtain ⟨_, rfl⟩ := Outcome.done.inj hdone'
  have hspare : (p.dismiss.spare vs).category? c id = some d := ht ▸ hd
  rw [category?_spare] at hspare
  obtain ⟨d', hd', hif⟩ := Option.map_eq_some_iff.mp hspare
  have hmem : (c, id) ∈ vs.flatMap fun v => v.2.reads := by
    by_contra hno
    rw [if_neg hno] at hif
    cases hif
    have hfalse := hu.category? (show p.category? c id = some d from hd')
    rw [hfrozen] at hfalse
    cases hfalse
  obtain ⟨⟨i, v⟩, hv, hread⟩ := List.mem_flatMap.mp hmem
  have hre := (dismiss_spec h).1
  have hw : p.dismiss.WellFormed := h.of_bare_eq hre.bare_eq
  obtain ⟨vs', hvs', hjudged⟩ := hw.verdicts?_judged (s.rememberAll p.bodies) elision
  rw [hvs] at hvs'
  cases hvs'
  obtain ⟨o, ho, _, hj⟩ := (hjudged i v).mp hv
  obtain ⟨l, hl, u, _, hlu, he, _⟩ := hj.mem_reads hw hread
  obtain ⟨hoc, ha⟩ := mem_active.mp ho
  obtain ⟨check, ho'⟩ := hre.symm.occurrence? (hw.occurrence?_id hoc)
  obtain ⟨check', hu'⟩ := hre.symm.occurrence? hlu
  obtain ⟨hc, hid⟩ := Prod.mk.inj he
  exact ⟨_, mem_active.mpr ⟨mem_occurrences_iff.mpr ⟨_, ho'⟩, ha⟩, l, hl, _, hu', hc.symm, hid.symm⟩

end History

end Program

end ConstraintRules
