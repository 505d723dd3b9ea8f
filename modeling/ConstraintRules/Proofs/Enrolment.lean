import ConstraintRules.Proofs.Ledger
import ConstraintRules.Proofs.Indexing

/-! What indexing leaves behind: for each path the partners entered for it, each
once, and one master. -/

namespace ConstraintRules

theorem modify_concat_length {α : Type} (xs : List α) (x : α) (f : α → α) :
    (xs ++ [x]).modify xs.length f = xs ++ [f x] := by
  rw [List.modify_eq_take_cons_drop (by simp)]
  simp

def Category.withMember (c : Category) (o : OccurrenceId) : Category :=
  { c with members := (Activation.insertNew o c.members).2 }

theorem Category.enroll_eq_ok {c : Category} (h : c.frozen = false) (o : OccurrenceId) :
    c.enroll o = .ok (c.withMember o) := by
  unfold enroll withMember Activation.insertNew
  rw [if_neg (by simp [h])]
  split <;> rfl

namespace Categories

variable {cs ds : Categories} {entries : List (AccessPath × OccurrenceId)}

theorem not_mem_paths_of_find? {path : AccessPath} (h : cs.find? path = none) :
    path ∉ cs.paths := by
  intro hmem
  obtain ⟨c, hc, hpath⟩ := List.mem_map.mp hmem
  rw [find?, Option.map_eq_none_iff, List.findIdx?_eq_none_iff] at h
  simpa [hpath] using h c hc

theorem enter_of_find? {path : AccessPath} {id : CategoryId} {c : Category}
    (hfind : cs.find? path = some id) (hget : cs.get? id = some c) (hfrozen : c.frozen = false)
    (o : OccurrenceId) :
    cs.enter path o = .ok (id, cs.modify id fun _ => c.withMember o) := by
  simp only [enter, ensure, hfind, enroll, get, hget, Category.enroll_eq_ok hfrozen, Except.map]

theorem enter_of_find?_none {path : AccessPath} (hfind : cs.find? path = none) (o : OccurrenceId) :
    cs.enter path o =
      .ok (⟨cs.size⟩, { cs with list := cs.list ++ [{ path, members := [o] }] }) := by
  simp [enter, ensure, hfind, push, enroll, get, get?, size, Category.enroll, modify,
    modify_concat_length, Except.map]

/-- `ds` is `cs` with `c` added, or in the place of the category that had its path. -/
structure Updated (cs ds : Categories) (c : Category) : Prop where
  masterId_eq : ds.masterId = cs.masterId
  nodup_paths : ds.paths.Nodup
  paths_subset : cs.paths ⊆ ds.paths
  mem : c ∈ ds.list
  others : ∀ d ∈ ds.list, d = c ∨ (d ∈ cs.list ∧ d.path ≠ c.path)

theorem updated_of_replace (h : cs.paths.Nodup) {before after : List Category} {c d : Category}
    (hlist : cs.list = before ++ d :: after) (hpath : c.path = d.path)
    (hds : ds.list = before ++ c :: after) (hmaster : ds.masterId = cs.masterId) :
    cs.Updated ds c where
  masterId_eq := hmaster
  nodup_paths := by simpa [paths, hds, hlist, hpath] using h
  paths_subset := by simp [paths, hds, hlist, hpath]
  mem := hds ▸ List.mem_append_right _ List.mem_cons_self
  others e he := by
    rw [paths, hlist, List.map_append, List.map_cons, List.nodup_middle, List.nodup_cons,
      ← List.map_append] at h
    have hcases : e = c ∨ e ∈ before ++ after := by
      simp only [hds, List.mem_append, List.mem_cons] at he ⊢
      tauto
    refine hcases.imp_right fun he =>
      ⟨?_, fun heq => h.1 ((heq.trans hpath) ▸ List.mem_map_of_mem he)⟩
    simp only [hlist, List.mem_append, List.mem_cons] at he ⊢
    tauto

theorem updated_of_append (h : cs.paths.Nodup) {c : Category} (hnew : c.path ∉ cs.paths)
    (hds : ds.list = cs.list ++ [c]) (hmaster : ds.masterId = cs.masterId) : cs.Updated ds c where
  masterId_eq := hmaster
  nodup_paths := by
    have hpaths : ds.paths = cs.paths ++ [c.path] := by simp [paths, hds]
    rw [hpaths]
    exact h.append (List.nodup_singleton _) (by simpa using hnew)
  paths_subset := by simp [paths, hds]
  mem := hds ▸ List.mem_append_right _ (List.mem_singleton_self c)
  others e he := by
    rw [hds] at he
    rcases List.mem_append.mp he with he | he
    · exact Or.inr ⟨he, fun heq => hnew (heq ▸ List.mem_map_of_mem he)⟩
    · exact Or.inl (List.mem_singleton.mp he)

theorem enter_updated (h : cs.paths.Nodup) (hfrozen : cs.Unfrozen) (path : AccessPath)
    (o : OccurrenceId) :
    ∃ id ds c, cs.enter path o = .ok (id, ds) ∧ cs.Updated ds c ∧ c.path = path ∧
      ((∃ d ∈ cs.list, d.path = path ∧ c = d.withMember o) ∨
        (path ∉ cs.paths ∧ c = { path, members := [o] })) := by
  cases hf : cs.find? path with
  | some id =>
    have hid := getElem?_paths_of_find? hf
    rw [getElem?_paths] at hid
    obtain ⟨d, hd, hpath⟩ := Option.map_eq_some_iff.mp hid
    obtain ⟨hlt, _⟩ := List.getElem?_eq_some_iff.mp hd
    obtain ⟨before, e, after, hlist, hlen, hmodify⟩ :=
      List.exists_of_modify (fun _ => d.withMember o) hlt
    have he : e = d := by simpa [get?, hlist, ← hlen] using hd
    rw [he] at hlist
    have hmem := List.mem_of_getElem? hd
    exact ⟨id, _, d.withMember o, enter_of_find? hf hd (hfrozen d hmem) o,
      updated_of_replace h hlist rfl hmodify rfl, hpath, Or.inl ⟨d, hmem, hpath, rfl⟩⟩
  | none =>
    have hnew := not_mem_paths_of_find? hf
    exact ⟨_, _, _, enter_of_find?_none hf o, updated_of_append h hnew rfl rfl, rfl,
      Or.inr ⟨hnew, rfl⟩⟩

/-- The categories hold the entries: paths are distinct, and the members of a category are the
partners entered for its path. -/
structure Enrolled (cs : Categories) (entries : List (AccessPath × OccurrenceId)) : Prop where
  nodup_paths : cs.paths.Nodup
  mem_paths : ∀ e ∈ entries, e.1 ∈ cs.paths
  nodup_members : ∀ c ∈ cs.list, c.members.Nodup
  mem_members : ∀ c ∈ cs.list, ∀ o, o ∈ c.members ↔ (c.path, o) ∈ entries

/-- No master has been elected, and every category is in use. -/
structure Unelected (cs : Categories) : Prop where
  masterId_eq : cs.masterId = none
  master_eq : ∀ c ∈ cs.list, c.master = false
  occupied : ∀ c ∈ cs.list, c.members ≠ []

theorem enrolled_empty : empty.Enrolled [] := by
  constructor <;> simp [empty, paths]

theorem unelected_empty : empty.Unelected := by
  constructor <;> simp [empty]

theorem Enrolled.updated (h : cs.Enrolled entries) {c : Category} (hds : cs.Updated ds c)
    {o : OccurrenceId} (hnodup : c.members.Nodup)
    (hmem : ∀ u, u ∈ c.members ↔ (c.path, u) ∈ entries ∨ u = o) :
    ds.Enrolled (entries ++ [(c.path, o)]) where
  nodup_paths := hds.nodup_paths
  mem_paths e he := by
    rcases List.mem_append.mp he with he | he
    · exact hds.paths_subset (h.mem_paths e he)
    · rw [List.mem_singleton.mp he]
      exact List.mem_map_of_mem hds.mem
  nodup_members d hd := by
    rcases hds.others d hd with rfl | ⟨hd, _⟩
    · exact hnodup
    · exact h.nodup_members d hd
  mem_members d hd u := by
    rcases hds.others d hd with rfl | ⟨hd, hne⟩
    · simp [hmem]
    · simp [h.mem_members d hd, hne]

theorem Unelected.updated (h : cs.Unelected) {c : Category} (hds : cs.Updated ds c)
    (hmaster : c.master = false) (hmem : c.members ≠ []) : ds.Unelected where
  masterId_eq := hds.masterId_eq.trans h.masterId_eq
  master_eq d hd := by
    rcases hds.others d hd with rfl | ⟨hd, _⟩
    · exact hmaster
    · exact h.master_eq d hd
  occupied d hd := by
    rcases hds.others d hd with rfl | ⟨hd, _⟩
    · exact hmem
    · exact h.occupied d hd

theorem Enrolled.enter (h : cs.Enrolled entries) (hu : cs.Unelected) (hfrozen : cs.Unfrozen)
    (path : AccessPath) (o : OccurrenceId) :
    ∃ id ds, cs.enter path o = .ok (id, ds) ∧ ds.Enrolled (entries ++ [(path, o)]) ∧
      ds.Unelected := by
  obtain ⟨id, ds, c, henter, hds, rfl, ⟨d, hd, hpath, rfl⟩ | ⟨hnew, hc⟩⟩ :=
    enter_updated h.nodup_paths hfrozen path o
  · refine ⟨id, ds, henter,
      h.updated hds (Activation.nodup_insertNew (h.nodup_members d hd)) fun u => ?_,
      hu.updated hds (hu.master_eq d hd)
      (List.ne_nil_of_mem (Activation.mem_insertNew.mpr (Or.inr rfl)))⟩
    exact Activation.mem_insertNew.trans (or_congr (h.mem_members d hd u) Iff.rfl)
  · have hmembers : c.members = [o] := by rw [hc]
    refine ⟨id, ds, henter, h.updated hds ?_ fun u => ?_, hu.updated hds (by rw [hc]) ?_⟩
    · rw [hmembers]
      exact List.nodup_singleton o
    · have hno : (c.path, u) ∉ entries := fun he => hnew (h.mem_paths _ he)
      simp [hmembers, hno]
    · rw [hmembers]
      exact List.cons_ne_nil _ _

/-- The path that calls for a master: the scan, else the first path with a key if the constraint
is ever stored, else a new scan. -/
def masterPath (searched : List AccessPath) (mayBeStored : Bool) : AccessPath :=
  if .scan ∈ searched then .scan
  else if mayBeStored then (searched.find? fun path => path.kind.isKeyed).getD .scan
  else .neverStored

theorem find?_of_firstKeyed? {id : CategoryId} (h : cs.firstKeyed? = some id) :
    ∃ path, cs.paths.find? (fun path => path.kind.isKeyed) = some path ∧
      cs.find? path = some id := by
  obtain ⟨i, hi, rfl⟩ := Option.map_eq_some_iff.mp h
  obtain ⟨hlt, hkeyed, hfirst⟩ := List.findIdx?_eq_some_iff_getElem.mp hi
  refine ⟨cs.list[i].path, ?_, ?_⟩
  · rw [paths, List.find?_map, Option.map_eq_some_iff]
    refine ⟨cs.list[i], ?_, rfl⟩
    exact List.find?_eq_some_iff_getElem.mpr ⟨hkeyed, i, hlt, rfl,
      fun j hj => by simpa using hfirst j hj⟩
  · -- a category before it with the same path would have a key as well
    rw [find?, Option.map_eq_some_iff]
    refine ⟨i,
      List.findIdx?_eq_some_iff_getElem.mpr ⟨hlt, by simp, fun j hj hsame => hfirst j hj ?_⟩, rfl⟩
    rw [of_decide_eq_true hsame]
    exact hkeyed

theorem nominate_eq (cs : Categories) (mayBeStored : Bool) :
    cs.nominate mayBeStored = cs.ensure (masterPath cs.paths mayBeStored) := by
  unfold nominate masterPath
  cases hscan : cs.find? .scan with
  | some id =>
    rw [if_pos (List.mem_of_getElem? (getElem?_paths_of_find? hscan))]
    simp [ensure, hscan]
  | none =>
    rw [if_neg (not_mem_paths_of_find? hscan)]
    cases mayBeStored with
    | false => rfl
    | true =>
      cases hkeyed : cs.firstKeyed? with
      | some id =>
        obtain ⟨path, hpath, hfind⟩ := find?_of_firstKeyed? hkeyed
        simp [hpath, ensure, hfind]
      | none =>
        have hnone : cs.paths.find? (fun path => path.kind.isKeyed) = none := by
          rw [firstKeyed?, Option.map_eq_none_iff, List.findIdx?_eq_none_iff] at hkeyed
          simpa [paths] using hkeyed
        simp [hnone]

/-- The paths of the categories that have members. -/
def searched (cs : Categories) : List AccessPath :=
  (cs.list.filter fun c => !c.members.isEmpty).map Category.path

/-- One category is master, the one of the path that the searched paths call for; no
other is without members. -/
structure Headed (cs : Categories) (mayBeStored : Bool) : Prop where
  master : ∃ id, cs.masterId = some id ∧
    cs.paths[id.index]? = some (masterPath cs.searched mayBeStored) ∧
    ∀ i c, cs.get? i = some c → (c.master = true ↔ i = id)
  occupied : ∀ c ∈ cs.list, c.members = [] → c.master = true

theorem Unelected.searched_eq (h : cs.Unelected) : cs.searched = cs.paths := by
  rw [searched, List.filter_eq_self.mpr fun c hc => ?_, paths]
  simpa using h.occupied c hc

theorem Enrolled.push (h : cs.Enrolled entries) {path : AccessPath} (hnew : path ∉ cs.paths) :
    (cs.push path).2.Enrolled entries := by
  have hds : cs.Updated (cs.push path).2 { path } := updated_of_append h.nodup_paths hnew rfl rfl
  refine ⟨hds.nodup_paths, fun e he => hds.paths_subset (h.mem_paths e he), fun d hd => ?_,
    fun d hd u => ?_⟩
  · rcases hds.others d hd with rfl | ⟨hd, _⟩
    · exact List.nodup_nil
    · exact h.nodup_members d hd
  · rcases hds.others d hd with rfl | ⟨hd, _⟩
    · simpa using fun he => hnew (h.mem_paths _ he)
    · exact h.mem_members d hd u

theorem Unelected.ensure (hu : cs.Unelected) (h : cs.Enrolled entries) (path : AccessPath) :
    (cs.ensure path).2.Enrolled entries ∧ (cs.ensure path).2.searched = cs.paths ∧
      (cs.ensure path).2.masterId = none ∧
      ∀ i c, (cs.ensure path).2.get? i = some c →
        c.master = false ∧ (c.members = [] → i = (cs.ensure path).1) := by
  have hold : ∀ c ∈ cs.list, c.master = false ∧ c.members ≠ [] :=
    fun c hc => ⟨hu.master_eq c hc, hu.occupied c hc⟩
  rw [Categories.ensure]
  cases hf : cs.find? path with
  | some id =>
    refine ⟨h, hu.searched_eq, hu.masterId_eq, fun i c hc => ?_⟩
    obtain ⟨hmaster, hmem⟩ := hold c (List.mem_of_getElem? hc)
    exact ⟨hmaster, fun hnil => absurd hnil hmem⟩
  | none =>
    refine ⟨h.push (not_mem_paths_of_find? hf), ?_, hu.masterId_eq, fun i c hc => ?_⟩
    · rw [← hu.searched_eq]
      simp [searched, Categories.push]
    · rcases getElem?_append_cases hc with hc | ⟨j, hj, hc⟩
      · obtain ⟨hmaster, hmem⟩ := hold c (List.mem_of_getElem? hc)
        exact ⟨hmaster, fun hnil => absurd hnil hmem⟩
      · rw [List.getElem?_singleton, Option.ite_none_right_eq_some] at hc
        obtain ⟨rfl, hc⟩ := hc
        exact ⟨Option.some.inj hc ▸ rfl, fun _ => congrArg CategoryId.mk hj⟩

theorem moveMaster_eq (h : cs.masterId = none) (id : CategoryId) :
    cs.moveMaster id =
      { cs.modify id fun c => { c with master := true } with masterId := some id } := by
  simp [moveMaster, h]

theorem get?_moveMaster (h : cs.masterId = none) (id i : CategoryId) :
    (cs.moveMaster id).get? i =
      (cs.get? i).map fun c => if i = id then { c with master := true } else c := by
  rw [moveMaster_eq h]
  exact cs.get?_modify id i _

def contents (cs : Categories) : List (AccessPath × List OccurrenceId) :=
  cs.list.map fun c => (c.path, c.members)

theorem contents_moveMaster (h : cs.masterId = none) (id : CategoryId) :
    (cs.moveMaster id).contents = cs.contents := by
  rw [moveMaster_eq h]
  exact map_modify_eq fun _ _ => rfl

theorem Enrolled.of_contents_eq (h : cs.Enrolled entries) (hds : ds.contents = cs.contents) :
    ds.Enrolled entries := by
  have hpaths : ds.paths = cs.paths := by
    simpa [paths, contents, Function.comp_def] using congrArg (List.map Prod.fst) hds
  have hmem : ∀ d ∈ ds.list, ∃ c ∈ cs.list, c.path = d.path ∧ c.members = d.members := by
    intro d hd
    have hin : (d.path, d.members) ∈ cs.contents := hds ▸ List.mem_map_of_mem hd
    simpa [contents] using hin
  refine ⟨hpaths ▸ h.nodup_paths, hpaths ▸ h.mem_paths, fun d hd => ?_, fun d hd o => ?_⟩
  · obtain ⟨c, hc, _, hmembers⟩ := hmem d hd
    exact hmembers ▸ h.nodup_members c hc
  · obtain ⟨c, hc, hpath, hmembers⟩ := hmem d hd
    rw [← hpath, ← hmembers]
    exact h.mem_members c hc o

theorem searched_of_contents_eq (hds : ds.contents = cs.contents) : ds.searched = cs.searched := by
  have hfilter := congrArg (fun xs => (xs.filter fun x => !x.2.isEmpty).map Prod.fst) hds
  simpa [searched, contents, List.filter_map, Function.comp_def] using hfilter

/-- Electing a master leaves the entries as they are and marks one category. -/
theorem Enrolled.electMaster (h : cs.Enrolled entries) (hu : cs.Unelected) (mayBeStored : Bool) :
    (cs.electMaster mayBeStored).2.Enrolled entries ∧
      (cs.electMaster mayBeStored).2.Headed mayBeStored := by
  obtain ⟨hds, hsearched, hnone, hmarks⟩ := hu.ensure h (masterPath cs.paths mayBeStored)
  obtain ⟨_, hid, _⟩ := cs.ensure_spec (masterPath cs.paths mayBeStored)
  have helect : (cs.electMaster mayBeStored).2 =
      (cs.ensure (masterPath cs.paths mayBeStored)).2.moveMaster
      (cs.ensure (masterPath cs.paths mayBeStored)).1 := by
    rw [Categories.electMaster, nominate_eq]
  rw [helect]
  generalize cs.ensure (masterPath cs.paths mayBeStored) = nominated at *
  obtain ⟨id, ds⟩ := nominated
  have hsame := contents_moveMaster hnone id
  have hmaster : ∀ i c, (ds.moveMaster id).get? i = some c →
      (c.master = true ↔ i = id) ∧ (c.members = [] → i = id) := by
    intro i c hc
    rw [get?_moveMaster hnone] at hc
    obtain ⟨d, hd, rfl⟩ := Option.map_eq_some_iff.mp hc
    obtain ⟨hfalse, hempty⟩ := hmarks i d hd
    by_cases hi : i = id
    · simp [hi]
    · simpa [hi, hfalse] using fun hnil => hi (hempty hnil)
  refine ⟨hds.of_contents_eq hsame,
    ⟨id, by rw [moveMaster_eq hnone], ?_, fun i c hc => (hmaster i c hc).1⟩, fun c hc hnil => ?_⟩
  · rw [searched_of_contents_eq hsame, hsearched, (ds.moveMaster_spec id).1]
    exact hid
  · obtain ⟨i, hi⟩ := List.mem_iff_getElem?.mp hc
    obtain ⟨hiff, hempty⟩ := hmaster ⟨i⟩ c hi
    exact hiff.mpr (hempty hnil)

end Categories

end ConstraintRules
