import ConstraintRules.Proofs.CategoryRuns
import ConstraintRules.Proofs.IndexingGrowth
import ConstraintRules.Proofs.JoinLabels
import ConstraintRules.Proofs.Schedules

/-! Where indexing stops: at the first search whose category was frozen before,
with the searches before it recorded. -/

namespace ConstraintRules

section Additions

variable {α : Type} [DecidableEq α] {xs ys : List α} {y : α}

/-- What `ys` adds to `xs`, each once and in the order in which it comes. -/
def additions (xs ys : List α) : List α := (ys.filter fun y => y ∉ xs).eraseDups

theorem mem_additions : y ∈ additions xs ys ↔ y ∈ ys ∧ y ∉ xs := by
  simp [additions]

theorem mem_append_additions : y ∈ xs ++ additions xs ys ↔ y ∈ xs ∨ y ∈ ys := by
  rw [List.mem_append, mem_additions]
  tauto

theorem additions_concat_of_mem (h : y ∈ xs ∨ y ∈ ys) :
    additions xs (ys ++ [y]) = additions xs ys := by
  by_cases hx : y ∈ xs
  · simp [additions, hx]
  · have hy : y ∈ ys := h.resolve_left hx
    simp [additions, List.eraseDups_append, List.removeAll, hx, hy]

theorem additions_concat_of_not_mem (hx : y ∉ xs) (hy : y ∉ ys) :
    additions xs (ys ++ [y]) = additions xs ys ++ [y] := by
  simp [additions, List.eraseDups_append, List.eraseDups_cons, List.removeAll, hx, hy]

theorem additions_append (xs ys zs : List α) : additions xs ys <+: additions xs (ys ++ zs) := by
  rw [additions, additions, List.filter_append, List.eraseDups_append]
  exact List.prefix_append _ _

theorem nodup_append_additions (h : xs.Nodup) : (xs ++ additions xs ys).Nodup :=
  h.append (nodup_eraseDups _) fun _ hx hy => (mem_additions.mp hy).2 hx

end Additions

theorem modify_map_eq {α β : Type} {xs : List α} {i : Nat} {f f' : α → β} {g : β → β}
    (hsame : ∀ x, xs[i]? = some x → g (f x) = f' x)
    (hother : ∀ j x, xs[j]? = some x → j ≠ i → f x = f' x) :
    (xs.map f).modify i g = xs.map f' := by
  apply List.ext_getElem?
  intro j
  rw [List.getElem?_modify, List.getElem?_map, List.getElem?_map]
  cases hx : xs[j]? with
  | none => rfl
  | some x =>
    by_cases hj : i = j
    · subst hj
      simp [hsame x hx]
    · simp [hj, hother j x hx (Ne.symm hj)]

def Category.withMembers (c : Category) (os : List OccurrenceId) : Category :=
  { c with members := c.members ++ additions c.members os }

theorem Category.withMembers_concat (c : Category) (os : List OccurrenceId) (o : OccurrenceId) :
    (c.withMembers os).withMember o = c.withMembers (os ++ [o]) := by
  by_cases h : o ∈ c.members ∨ o ∈ os
  · rw [withMember, withMembers, withMembers, insertNew_of_mem (mem_append_additions.mpr h),
      additions_concat_of_mem h]
  · have hnew : o ∉ c.members ++ additions c.members os :=
      fun hmem => h (mem_append_additions.mp hmem)
    rw [not_or] at h
    simp only [withMember, withMembers, Activation.insertNew, hnew, if_false,
      additions_concat_of_not_mem h.1 h.2, List.append_assoc]

namespace Categories

variable {cs : Categories} {entries : List (AccessPath × OccurrenceId)} {path : AccessPath}

def entered (entries : List (AccessPath × OccurrenceId)) (path : AccessPath) : List OccurrenceId :=
  (entries.filter fun e => e.1 = path).map Prod.snd

/-- The categories that there are, then those for the paths that the entries add. -/
def extended (cs : Categories) (entries : List (AccessPath × OccurrenceId)) : List Category :=
  cs.list ++ (additions cs.paths (entries.map Prod.fst)).map fun path => { path := path }

/-- The categories with the entries. Each takes the members that are entered for its
path, after those that it has. -/
def withEntries (cs : Categories) (entries : List (AccessPath × OccurrenceId)) : Categories :=
  { cs with list := (cs.extended entries).map fun c => c.withMembers (entered entries c.path) }

theorem withEntries_nil (cs : Categories) : cs.withEntries [] = cs := by
  simp [withEntries, extended, additions, entered, Category.withMembers]

theorem paths_withEntries (cs : Categories) (entries : List (AccessPath × OccurrenceId)) :
    (cs.withEntries entries).paths = cs.paths ++ additions cs.paths (entries.map Prod.fst) := by
  simp [paths, withEntries, extended, Category.withMembers, Function.comp_def]

theorem nodup_paths_withEntries (h : cs.paths.Nodup) (entries : List (AccessPath × OccurrenceId)) :
    (cs.withEntries entries).paths.Nodup := by
  rw [paths_withEntries]
  exact nodup_append_additions h

theorem mem_paths_withEntries :
    path ∈ (cs.withEntries entries).paths ↔ path ∈ cs.paths ∨ path ∈ entries.map Prod.fst := by
  rw [paths_withEntries, mem_append_additions]

theorem entered_concat_self (entries : List (AccessPath × OccurrenceId)) (path : AccessPath)
    (o : OccurrenceId) :
    entered (entries ++ [(path, o)]) path = entered entries path ++ [o] := by
  simp [entered]

theorem entered_concat_of_ne {other : AccessPath} (h : other ≠ path) (o : OccurrenceId) :
    entered (entries ++ [(path, o)]) other = entered entries other := by
  simp [entered, Ne.symm h]

theorem entered_eq_nil (h : path ∉ entries.map Prod.fst) : entered entries path = [] := by
  rw [entered, List.map_eq_nil_iff, List.filter_eq_nil_iff]
  intro e he hpath
  exact h (of_decide_eq_true hpath ▸ List.mem_map_of_mem he)

theorem barred_iff (h : cs.paths.Nodup) :
    cs.Barred path ↔ ∃ c ∈ cs.list, c.path = path ∧ c.frozen = true := by
  constructor
  · rintro ⟨id, c, hfind, hget, hfrozen⟩
    obtain ⟨c', hget', hpath⟩ := get?_of_find? hfind
    rw [hget] at hget'
    cases hget'
    exact ⟨c, List.mem_of_getElem? hget, hpath, hfrozen⟩
  · rintro ⟨c, hc, hpath, hfrozen⟩
    obtain ⟨i, hi⟩ := List.mem_iff_getElem?.mp hc
    exact ⟨⟨i⟩, c, (find?_eq_some_iff h).mpr ⟨c, hi, hpath⟩, hi, hfrozen⟩

theorem barred_withEntries (h : cs.paths.Nodup) :
    (cs.withEntries entries).Barred path ↔ cs.Barred path := by
  rw [barred_iff (nodup_paths_withEntries h entries), barred_iff h]
  constructor
  · rintro ⟨c, hc, hpath, hfrozen⟩
    obtain ⟨d, hd, rfl⟩ := List.mem_map.mp hc
    rcases List.mem_append.mp hd with hd | hd
    · exact ⟨d, hd, hpath, hfrozen⟩
    · obtain ⟨_, _, rfl⟩ := List.mem_map.mp hd
      cases hfrozen
  · rintro ⟨c, hc, hpath, hfrozen⟩
    exact ⟨_, List.mem_map_of_mem (List.mem_append_left _ hc), hpath, hfrozen⟩

def numberOf (cs : Categories) (path : AccessPath) : CategoryId := ⟨cs.paths.idxOf path⟩

theorem find?_eq_numberOf {id : CategoryId} (h : cs.paths.Nodup) (hfind : cs.find? path = some id) :
    id = cs.numberOf path := by
  have hid := getElem?_paths_of_find? hfind
  obtain ⟨hlt, rfl⟩ := List.getElem?_eq_some_iff.mp hid
  rw [numberOf, h.idxOf_getElem id.index hlt]

theorem numberOf_withEntries_append (h : path ∈ entries.map Prod.fst)
    (more : List (AccessPath × OccurrenceId)) :
    (cs.withEntries (entries ++ more)).numberOf path = (cs.withEntries entries).numberOf path := by
  obtain ⟨further, hfurther⟩ := additions_append cs.paths (entries.map Prod.fst) (more.map Prod.fst)
  have hpaths : (cs.withEntries (entries ++ more)).paths =
      (cs.withEntries entries).paths ++ further := by
    rw [paths_withEntries, paths_withEntries, List.map_append, ← hfurther, List.append_assoc]
  rw [numberOf, hpaths, List.idxOf_append_of_mem (mem_paths_withEntries.mpr (Or.inr h)), numberOf]

theorem paths_extended (cs : Categories) (entries : List (AccessPath × OccurrenceId)) :
    (cs.extended entries).map Category.path = (cs.withEntries entries).paths := by
  simp [paths, withEntries, Category.withMembers, Function.comp_def]

theorem withEntries_concat_of_get? (h : cs.paths.Nodup) {id : CategoryId} {c : Category}
    (hget : (cs.withEntries entries).get? id = some c) (o : OccurrenceId) :
    cs.withEntries (entries ++ [(c.path, o)]) =
      (cs.withEntries entries).modify id fun _ => c.withMember o := by
  have hid : (cs.withEntries entries).paths[id.index]? = some c.path := by
    rw [getElem?_paths, hget, Option.map_some]
  have hsame : cs.extended (entries ++ [(c.path, o)]) = cs.extended entries := by
    rw [extended, List.map_append, List.map_singleton,
      additions_concat_of_mem (mem_paths_withEntries.mp (List.mem_of_getElem? hid)), extended]
  rw [modify, withEntries, withEntries, hsame]
  refine congrArg (Categories.mk · cs.masterId)
    (modify_map_eq (fun x hx => ?_) fun j x hx hj => ?_).symm
  · rw [get?, withEntries, List.getElem?_map, hx, Option.map_some] at hget
    cases hget
    rw [Category.withMembers_concat, show (x.withMembers _).path = x.path from rfl,
      entered_concat_self]
  · -- another category has another path
    have hne : x.path ≠ c.path := fun he => hj <| by
      have hxp : (cs.withEntries entries).paths[j]? = some c.path := by
        rw [← paths_extended, List.getElem?_map, hx, Option.map_some, he]
      exact congrArg CategoryId.index
        (eq_of_getElem?_paths (i := ⟨j⟩) (nodup_paths_withEntries h entries) hxp hid)
    rw [entered_concat_of_ne hne]

theorem withEntries_concat_of_not_mem (hnew : path ∉ (cs.withEntries entries).paths)
    (o : OccurrenceId) :
    cs.withEntries (entries ++ [(path, o)]) =
      { cs.withEntries entries with
        list := (cs.withEntries entries).list ++ [{ path, members := [o] }] } := by
  obtain ⟨hold, hentries⟩ : path ∉ cs.paths ∧ path ∉ entries.map Prod.fst :=
    not_or.mp fun hmem => hnew (mem_paths_withEntries.mpr hmem)
  have hmore : cs.extended (entries ++ [(path, o)]) =
      cs.extended entries ++ [{ path := path }] := by
    rw [extended, List.map_append, List.map_singleton, additions_concat_of_not_mem hold hentries,
      List.map_append, ← List.append_assoc, extended, List.map_singleton]
  have hothers : ∀ c ∈ cs.extended entries,
      entered (entries ++ [(path, o)]) c.path = entered entries c.path := by
    intro c hc
    have hmem : c.path ∈ (cs.withEntries entries).paths :=
      paths_extended cs entries ▸ List.mem_map_of_mem hc
    have hne : c.path ≠ path := fun he => hnew (he ▸ hmem)
    exact entered_concat_of_ne hne o
  have hfirst : entered (entries ++ [(path, o)]) path = [o] := by
    rw [entered_concat_self, entered_eq_nil hentries, List.nil_append]
  rw [withEntries, hmore, List.map_append, List.map_singleton, hfirst,
    List.map_congr_left fun c hc => congrArg c.withMembers (hothers c hc)]
  simp [withEntries, Category.withMembers, additions, List.eraseDups_cons]

theorem enter_withEntries (h : cs.paths.Nodup) (hfree : ¬cs.Barred path)
    (entries : List (AccessPath × OccurrenceId)) (o : OccurrenceId) :
    (cs.withEntries entries).enter path o =
      .ok ((cs.withEntries (entries ++ [(path, o)])).numberOf path,
        cs.withEntries (entries ++ [(path, o)])) := by
  cases hfind : (cs.withEntries entries).find? path with
  | some id =>
    obtain ⟨c, hget, rfl⟩ := get?_of_find? hfind
    have hfrozen : c.frozen = false := Bool.eq_false_iff.mpr fun htrue =>
      hfree ((barred_withEntries h).mp ⟨id, c, hfind, hget, htrue⟩)
    have hconcat := withEntries_concat_of_get? h hget o
    have hnumber : (cs.withEntries (entries ++ [(c.path, o)])).numberOf c.path = id := by
      have hpaths : ((cs.withEntries entries).modify id fun _ => c.withMember o).paths =
          (cs.withEntries entries).paths :=
        paths_modify _ _ _ fun d hd => by rw [Option.some.inj (hget.symm.trans hd)]; rfl
      rw [hconcat, numberOf, hpaths]
      exact (find?_eq_numberOf (nodup_paths_withEntries h entries) hfind).symm
    rw [enter_of_find? hfind hget hfrozen, hnumber, hconcat]
  | none =>
    have hnew := not_mem_paths_of_find? hfind
    have hconcat := withEntries_concat_of_not_mem hnew o
    have hnumber : (cs.withEntries (entries ++ [(path, o)])).numberOf path =
        ⟨(cs.withEntries entries).size⟩ := by
      have hpaths : (cs.withEntries (entries ++ [(path, o)])).paths =
          (cs.withEntries entries).paths ++ [path] := by
        rw [hconcat, paths, List.map_append, List.map_singleton, paths]
      rw [numberOf, hpaths, List.idxOf_append_of_notMem hnew]
      simp [size, paths]
    rw [enter_of_find?_none hfind, hnumber, hconcat]

theorem Grown.nodup_paths {ds : Categories} (hgrown : cs.Grown ds) (h : cs.paths.Nodup) :
    ds.paths.Nodup := by
  rcases hgrown with rfl | ⟨path, hnew, rfl⟩
  · exact h
  · rw [paths_push]
    exact h.append (List.nodup_singleton path) (by simpa using hnew)

theorem Effect.nodup_paths {ds : Categories} {read : Option CategoryId}
    (heffect : cs.Effect read ds) (h : cs.paths.Nodup) : ds.paths.Nodup := by
  cases heffect with
  | grow hgrown => exact hgrown.nodup_paths h
  | enroll o hget _ =>
    rw [paths_modify _ _ _ fun d hd => by rw [Option.some.inj (hget.symm.trans hd)]; rfl]
    exact h
  | freeze id =>
    rw [paths_freeze]
    exact h
  | promote hgrown _ =>
    rw [(moveMaster_spec _ _).1]
    exact hgrown.nodup_paths h

end Categories

/-- What may happen to a program: a pass is run, or something is asked of the categories of a
constraint. Reads of members and of singletons are asked that way. -/
inductive Visit where
  | run (x : Pass)
  | ask (c : ConstraintId) (r : Categories.Request)

namespace Program

variable {p q : Program} {s : Search} {done : List Search} {arrayIndexing : Bool}

def entriesFor (done : List Search) (c : ConstraintId) : List (AccessPath × OccurrenceId) :=
  (done.filter fun s => s.target = c).map Search.entry

def categoriesAfter (p : Program) (done : List Search) (c : ConstraintId) : Categories :=
  ((p.constraint? c).map fun k => k.categories.withEntries (entriesFor done c)).getD .empty

def lookupAfter (p : Program) (done : List Search) (s : Search) : Lookup where
  partner := s.partner
  path := s.path
  category := (p.categoriesAfter done s.target).numberOf s.path
  direct := s.direct

/-- The program with the lookups of the searches in place of those of its active occurrences,
and with their categories and members. -/
def recorded (p : Program) (done : List Search) : Program :=
  { p with
    constraints := p.constraints.map fun k =>
      { k with categories := k.categories.withEntries (entriesFor done k.id) }
    occurrences := p.occurrences.map fun o =>
      if o.isActive then
        { o with lookups := (done.filter fun s => s.active = o.id).map (p.lookupAfter done) }
      else o }

def Distinct (p : Program) : Prop := ∀ k ∈ p.constraints, k.categories.paths.Nodup

theorem recorded_nil (p : Program) : p.recorded [] = p.clearLookups := by
  simp [recorded, clearLookups, entriesFor, Categories.withEntries_nil]

theorem constraint?_recorded (h : p.WellFormed) {c : ConstraintId} {k : Constraint}
    (hk : p.constraint? c = some k) :
    (p.recorded done).constraint? c =
      some { k with categories := k.categories.withEntries (entriesFor done c) } := by
  have hid := h.id_of_constraint? hk
  rw [constraint?] at hk
  simp only [recorded, constraint?, List.getElem?_map, hk, Option.map_some, hid]

theorem categoriesAfter_eq {c : ConstraintId} {k : Constraint} (hk : p.constraint? c = some k)
    (done : List Search) :
    p.categoriesAfter done c = k.categories.withEntries (entriesFor done c) := by
  rw [categoriesAfter, hk, Option.map_some, Option.getD_some]

theorem barred_recorded (h : p.WellFormed) (hd : p.Distinct) (hs : p.Barred s) :
    (p.recorded done).Barred s := by
  obtain ⟨k, hk, hbarred⟩ := hs
  exact ⟨_, constraint?_recorded h hk,
    (Categories.barred_withEntries (hd k (List.mem_of_getElem? hk))).mpr hbarred⟩

theorem entriesFor_concat_self (done : List Search) (s : Search) :
    entriesFor (done ++ [s]) s.target = entriesFor done s.target ++ [(s.path, s.partner)] := by
  simp [entriesFor, Search.entry]

theorem entriesFor_concat_of_ne {c : ConstraintId} (h : s.target ≠ c) (done : List Search) :
    entriesFor (done ++ [s]) c = entriesFor done c := by
  simp [entriesFor, h]

theorem lookupAfter_concat {t : Search} (ht : t ∈ done) (hfits : t.Fits p) (s : Search) :
    p.lookupAfter (done ++ [s]) t = p.lookupAfter done t := by
  obtain ⟨k, hk⟩ := hfits.target
  rw [lookupAfter, lookupAfter, categoriesAfter_eq hk, categoriesAfter_eq hk]
  by_cases hst : s.target = t.target
  · have hmem : t.path ∈ (entriesFor done t.target).map Prod.fst := by
      rw [entriesFor, List.map_map]
      exact List.mem_map_of_mem (f := Prod.fst ∘ Search.entry)
        (List.mem_filter.mpr ⟨ht, decide_eq_true rfl⟩)
    rw [← hst, entriesFor_concat_self, hst, Categories.numberOf_withEntries_append hmem]
  · rw [entriesFor_concat_of_ne hst]

theorem constraints_recorded_concat (h : p.WellFormed) {k : Constraint}
    (hk : p.constraint? s.target = some k) :
    ((p.recorded done).constraints.modify s.target.index fun k' =>
      { k' with categories := k.categories.withEntries (entriesFor (done ++ [s]) s.target) }) =
      (p.recorded (done ++ [s])).constraints := by
  refine modify_map_eq (fun k' hk' => ?_) fun j k' hk' hj => ?_
  · cases hk.symm.trans hk'
    rw [h.id_of_constraint? hk]
  · rw [h.constraint_id j k' hk',
      entriesFor_concat_of_ne fun he => hj (congrArg ConstraintId.index he).symm]

theorem occurrences_recorded_concat (h : p.WellFormed) (hdone : ∀ t ∈ done, t.Fits p)
    (hs : s.Fits p) :
    ((p.recorded done).occurrences.modify s.active.index fun o =>
      { o with lookups := o.lookups ++ [p.lookupAfter (done ++ [s]) s] }) =
        (p.recorded (done ++ [s])).occurrences := by
  obtain ⟨o, ho, ha⟩ := hs.active
  have hlookups : ∀ id, ((done.filter fun t => t.active = id).map (p.lookupAfter (done ++ [s]))) =
      (done.filter fun t => t.active = id).map (p.lookupAfter done) := fun id =>
        List.map_congr_left fun t ht => by
    have hmem := List.mem_of_mem_filter ht
    exact lookupAfter_concat hmem (hdone t hmem) s
  refine modify_map_eq (fun o' ho' => ?_) fun j o' ho' hj => ?_
  · cases ho.symm.trans ho'
    simp [ha, h.id_of_occurrence? ho, hlookups]
  · have hne : s.active ≠ o'.id := fun he => hj (by rw [he, h.occurrence_id j o' ho'])
    simp [hne, hlookups]

theorem record_recorded (h : p.WellFormed) (hd : p.Distinct) (hdone : ∀ t ∈ done, t.Fits p)
    (hs : s.Fits p) (hfree : ¬p.Barred s) :
    (p.recorded done).record s = .ok (p.recorded (done ++ [s])) := by
  obtain ⟨k, hk⟩ := hs.target
  have henter :=
    Categories.enter_withEntries (hd k (List.mem_of_getElem? hk))
      (fun hbarred => hfree ⟨k, hk, hbarred⟩)
    (entriesFor done s.target) s.partner
  have hoccurrences := occurrences_recorded_concat h hdone hs
  rw [lookupAfter, categoriesAfter_eq hk] at hoccurrences
  rw [← entriesFor_concat_self] at henter
  rw [record_eq, constraint?_recorded h hk]
  simp only [henter, Except.map, withLookup, modifyConstraint, modifyOccurrence,
    constraints_recorded_concat h hk, hoccurrences]
  rfl

theorem recordAll_recorded (h : p.WellFormed) (hd : p.Distinct) {rest : List Search}
    (hfits : ∀ t ∈ done ++ rest, t.Fits p) (hfree : ∀ t ∈ rest, ¬p.Barred t) :
    (p.recorded done).recordAll rest = (none, p.recorded (done ++ rest)) := by
  -- `done` has been recorded, and its categories keep their numbers from here on
  induction rest generalizing done with
  | nil => rw [List.append_nil, recordAll]
  | cons s rest ih =>
    have hrecord := record_recorded h hd (fun t ht => hfits t (List.mem_append_left _ ht))
      (hfits s (List.mem_append_right _ List.mem_cons_self)) (hfree s List.mem_cons_self)
    have hnext : done ++ s :: rest = (done ++ [s]) ++ rest := by
      rw [List.append_assoc, List.singleton_append]
    rw [hnext] at hfits ⊢
    rw [recordAll, hrecord]
    exact ih hfits fun t ht => hfree t (List.mem_cons_of_mem _ ht)

theorem exists_first_barred {plan : List Search} (h : ∃ s ∈ plan, p.Barred s) : ∃ before s after,
    plan = before ++ s :: after ∧ p.Barred s ∧ ∀ t ∈ before, ¬p.Barred t := by
  classical
  obtain ⟨s, hs, hbarred⟩ := h
  have hfind : (plan.find? fun t => decide (p.Barred t)).isSome = true :=
    List.find?_isSome.mpr ⟨s, hs, decide_eq_true hbarred⟩
  obtain ⟨t, ht⟩ := Option.isSome_iff_exists.mp hfind
  obtain ⟨htrue, before, after, hsplit, hfree⟩ := List.find?_eq_some_iff_append.mp ht
  exact ⟨before, t, after, hsplit, of_decide_eq_true htrue, fun u hu => by simpa using hfree u hu⟩

section Stops

variable (h : p.WellFormed) (hd : p.Distinct) {plan : List Search}
  (hplan : p.searchPlan? arrayIndexing = some plan)

include h hplan

theorem WellFormed.fits_of_plan : ∀ t ∈ plan, t.Fits p := by
  obtain ⟨plan', hplan', hfits⟩ := h.searchPlan?_eq_some arrayIndexing
  rw [hplan] at hplan'
  cases hplan'
  exact hfits

include hd

/-- Indexing stops at the first search of its plan that is barred, and leaves
what was recorded before. -/
theorem assignLookups_of_first_barred {before after : List Search}
    (hsplit : plan = before ++ s :: after) (hbarred : p.Barred s)
    (hfree : ∀ t ∈ before, ¬p.Barred t) :
    p.assignLookups arrayIndexing = .failed (.lookup (.frozen s.path)) (p.recorded before) := by
  have hfits : ∀ t ∈ [] ++ before, t.Fits p := fun t ht =>
    h.fits_of_plan hplan t (hsplit ▸ List.mem_append_left _ ht)
  have hbefore := recordAll_recorded h hd hfits hfree
  have hrecord : p.clearLookups.recordAll plan = (some (.frozen s.path), p.recorded before) := by
    rw [hsplit, ← recorded_nil, recordAll_append _ _ _ hbefore, recordAll, List.nil_append,
      record_of_barred (barred_recorded h hd hbarred)]
  simp only [assignLookups, hplan, hrecord]

theorem assignLookups_of_free (hfree : ∀ t ∈ plan, ¬p.Barred t) : p.assignLookups arrayIndexing =
    .done (.ofPlan plan (p.recorded plan).electMasters.categoryCount)
      (p.recorded plan).electMasters := by
  have hrecord : p.clearLookups.recordAll plan = (none, p.recorded plan) := by
    rw [← recorded_nil]
    exact recordAll_recorded h hd (h.fits_of_plan hplan) hfree
  simp only [assignLookups, hplan, hrecord]

theorem assignLookups_recorded :
    ∃ done, (p.assignLookups arrayIndexing).program? = some (p.recorded done) ∨
    (p.assignLookups arrayIndexing).program? = some (p.recorded done).electMasters := by
  by_cases hbarred : ∃ s ∈ plan, p.Barred s
  · obtain ⟨before, s, after, hsplit, hs, hfree⟩ := exists_first_barred hbarred
    exact ⟨before, Or.inl (by rw [assignLookups_of_first_barred h hd hplan hsplit hs hfree]; rfl)⟩
  · push Not at hbarred
    exact ⟨plan, Or.inr (by rw [assignLookups_of_free h hd hplan hbarred]; rfl)⟩

end Stops

section Visits

def visit? (p : Program) : Visit → Option Program
  | .run x => (x.run p).program?
  | .ask c r =>
    some (p.modifyConstraint c fun k => { k with categories := (k.categories.perform r).2 })

theorem Distinct.recorded (hd : p.Distinct) (done : List Search) : (p.recorded done).Distinct := by
  intro k hk
  obtain ⟨k₀, hk₀, rfl⟩ := List.mem_map.mp hk
  exact Categories.nodup_paths_withEntries (hd k₀ hk₀) _

theorem Distinct.electMasters (hd : p.Distinct) : p.electMasters.Distinct := by
  intro k hk
  obtain ⟨k₀, hk₀, rfl⟩ := List.mem_map.mp hk
  exact (k₀.categories.perform_effect (.elect k₀.mayBeStored)).nodup_paths (hd k₀ hk₀)

theorem Distinct.run (hd : p.Distinct) (h : p.WellFormed) {x : Pass}
    (hrun : (x.run p).program? = some q) (hq : p.AnnotatedBy x.part q) : q.Distinct := by
  by_cases hx : x.part = .lookups
  · obtain ⟨arrayIndexing, rfl⟩ := Pass.eq_lookups_of_part hx
    obtain ⟨plan, hplan, _⟩ := h.searchPlan?_eq_some arrayIndexing
    rw [Pass.run, Preparation.run, Outcome.program?_andThen_done] at hrun
    obtain ⟨done, hdone | hdone⟩ := assignLookups_recorded h hd hplan
    · cases hrun.symm.trans hdone
      exact hd.recorded done
    · cases hrun.symm.trans hdone
      exact (hd.recorded done).electMasters
  · exact hq.forall_categories (P := fun cs => cs.paths.Nodup) hx
      (fun _ _ _ hfreezes => hfreezes.paths_eq ▸ id) hd

theorem Distinct.ask (hd : p.Distinct) (c : ConstraintId) (r : Categories.Request) :
    (p.modifyConstraint c fun k =>
      { k with categories := (k.categories.perform r).2 }).Distinct := by
  intro k hk
  obtain ⟨i, hi⟩ := List.mem_iff_getElem?.mp hk
  rw [modifyConstraint, List.getElem?_modify] at hi
  obtain ⟨k₀, hk₀, rfl⟩ := Option.map_eq_some_iff.mp hi
  have hnodup := hd k₀ (List.mem_of_getElem? hk₀)
  by_cases hc : c.index = i
  · simpa [hc] using (k₀.categories.perform_effect r).nodup_paths hnodup
  · simpa [hc] using hnodup

theorem Distinct.visit? (hd : p.Distinct) (h : p.WellFormed) (v : Visit) :
    ∃ q, p.visit? v = some q ∧ q.WellFormed ∧ q.Distinct := by
  cases v with
  | run x =>
    obtain ⟨q, hrun, hq⟩ := h.toArranged.annotatedBy_run x
    exact ⟨q, hrun, h.of_bare_eq hq.bare_eq, hd.run h hrun hq⟩
  | ask c r =>
    have hbare : (p.constraints.modify c.index fun k =>
        { k with categories := (k.categories.perform r).2 }).map
        Constraint.bare = p.constraints.map Constraint.bare := map_modify_eq fun _ _ => rfl
    exact ⟨_, rfl, h.of_bare_eq (by simp only [bare, modifyConstraint, hbare]), hd.ask c r⟩

theorem Distinct.visits (hd : p.Distinct) (h : p.WellFormed) (vs : List Visit) :
    ∃ q, vs.foldlM Program.visit? p = some q ∧ q.WellFormed ∧ q.Distinct := by
  induction vs generalizing p with
  | nil => exact ⟨p, rfl, h, hd⟩
  | cons v vs ih =>
    obtain ⟨q, hvisit, hq, hqd⟩ := hd.visit? h v
    obtain ⟨t, hrest, ht⟩ := ih hqd hq
    refine ⟨t, ?_, ht⟩
    rw [List.foldlM_cons, hvisit]
    exact hrest

theorem build_distinct (steps : List BuildStep) : (build steps).Distinct := by
  intro k hk
  rw [← (build_unannotated steps).constraints k hk]
  exact List.nodup_nil

end Visits

section Pairs

/-- The order of a plan: active occurrences by their numbers, and the
partners of each in join order. -/
def PlannedBefore (a b : Occurrence × Occurrence) : Prop :=
  a.1.id.index < b.1.id.index ∨ (a.1 = b.1 ∧ a.2.Precedes b.2)

theorem WellFormed.exists_pairs (h : p.WellFormed) (arrayIndexing : Bool) {os : List Occurrence}
    (hos : ∀ o ∈ os, o ∈ p.occurrences) (hord : os.Pairwise fun u v => u.id.index < v.id.index) :
    ∃ pairs,
      (∀ o u, (o, u) ∈ pairs ↔ o ∈ os ∧ p.Partner o u) ∧ pairs.Pairwise PlannedBefore ∧
      List.Forall₂ (fun ou s => p.Plans ou.1 ou.2 s) pairs
        (os.flatMap (p.planOf arrayIndexing)) := by
  induction os with
  | nil => exact ⟨[], by simp, .nil, .nil⟩
  | cons o os ih =>
    obtain ⟨hlt, hrest⟩ := List.pairwise_cons.mp hord
    obtain ⟨pairs, hmem, hpairs, hplans⟩ := ih (fun u hu => hos u (List.mem_cons_of_mem _ hu)) hrest
    obtain ⟨_, us, hus, husord, husplans⟩ :=
      h.occurrencePlan?_plans arrayIndexing (hos o List.mem_cons_self)
    refine ⟨us.map (fun u => (o, u)) ++ pairs, fun o' u => ?_, ?_, ?_⟩
    · rw [List.mem_append, hmem, List.mem_map, List.mem_cons]
      constructor
      · rintro (⟨_, hu, he⟩ | ⟨ho', hu⟩)
        · cases he
          exact ⟨Or.inl rfl, (hus u).mp hu⟩
        · exact ⟨Or.inr ho', hu⟩
      · rintro ⟨rfl | ho', hu⟩
        · exact Or.inl ⟨u, (hus u).mpr hu, rfl⟩
        · exact Or.inr ⟨ho', hu⟩
    · refine List.pairwise_append.mpr
        ⟨List.pairwise_map.mpr (husord.imp fun huv => Or.inr ⟨rfl, huv⟩), hpairs, ?_⟩
      rintro a ha ⟨o', u'⟩ hb
      obtain ⟨u, _, rfl⟩ := List.mem_map.mp ha
      exact Or.inl (hlt o' ((hmem o' u').mp hb).1)
    · have hone : List.Forall₂ (fun ou s => p.Plans ou.1 ou.2 s) (us.map fun u => (o, u))
          (p.planOf arrayIndexing o) :=
        List.forall₂_map_left_iff.mpr husplans
      exact List.rel_append hone hplans

end Pairs

/-- Indexing fails exactly if some search of its plan is barred by a frozen category, and leaves
what the searches before the first such one have recorded. -/
theorem assignLookups_stops_exactly (steps : List BuildStep) (visits : List Visit)
    (arrayIndexing : Bool) :
    ∃ p plan pairs, visits.foldlM visit? (build steps) = some p ∧
      p.searchPlan? arrayIndexing = some plan ∧
      (∀ o u, (o, u) ∈ pairs ↔ o ∈ p.active ∧ p.Partner o u) ∧ pairs.Pairwise PlannedBefore ∧
      List.Forall₂ (fun ou s => p.Plans ou.1 ou.2 s) pairs plan ∧
      ((∃ e q, p.assignLookups arrayIndexing = .failed e q) ↔ ∃ s ∈ plan, p.Barred s) ∧
      ((∀ s ∈ plan, ¬p.Barred s) →
        ∃ stats, p.assignLookups arrayIndexing = .done stats (p.recorded plan).electMasters) ∧
      ∀ before s after, plan = before ++ s :: after → p.Barred s → (∀ t ∈ before, ¬p.Barred t) →
        p.assignLookups arrayIndexing = .failed (.lookup (.frozen s.path)) (p.recorded before) := by
  obtain ⟨p, hp, h, hd⟩ := (build_distinct steps).visits (build_wellFormed steps) visits
  have hplan := h.searchPlan?_eq arrayIndexing
  obtain ⟨pairs, hmem, hord, hplans⟩ :=
    h.exists_pairs arrayIndexing (fun o ho => List.mem_of_mem_filter ho)
    (h.pairwise_id_lt.filter Occurrence.isActive)
  have hfree := assignLookups_of_free h hd hplan
  refine ⟨p, _, pairs, hp, hplan, hmem, hord, hplans, ⟨?_, ?_⟩, fun hnone => ⟨_, hfree hnone⟩, ?_⟩
  · rintro ⟨e, q, hfailed⟩
    by_contra hnone
    push Not at hnone
    rw [hfree hnone] at hfailed
    cases hfailed
  · intro hbarred
    obtain ⟨before, s, after, hsplit, hs, hbefore⟩ := exists_first_barred hbarred
    exact ⟨_, _, assignLookups_of_first_barred h hd hplan hsplit hs hbefore⟩
  · intro before s after hsplit hs hbefore
    exact assignLookups_of_first_barred h hd hplan hsplit hs hbefore

end Program

end ConstraintRules
