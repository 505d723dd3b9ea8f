import ConstraintRules.Proofs.BareReads
import ConstraintRules.Proofs.Freezing
import ConstraintRules.Proofs.IndexingExact
import Mathlib.Data.List.Perm.Subperm

/-! Indexing a second time. While nothing is frozen, every search is entered where
it already is. -/

namespace ConstraintRules

theorem insertNew_of_mem {α : Type} [DecidableEq α] {x : α} {xs : List α} (h : x ∈ xs) :
    (Activation.insertNew x xs).2 = xs := by
  simp [Activation.insertNew, h]

theorem modify_eq_self {α : Type} {xs : List α} {i : Nat} {f : α → α}
    (h : ∀ x, xs[i]? = some x → f x = x) :
    xs.modify i f = xs := by
  have hmap : (xs.modify i f).map (fun x => x) = xs.map fun x => x := map_modify_eq h
  rwa [List.map_id', List.map_id'] at hmap

namespace Categories

variable {cs : Categories} {entries : List (AccessPath × OccurrenceId)}

theorem find?_of_mem_paths {path : AccessPath} (h : path ∈ cs.paths) :
    ∃ id, cs.find? path = some id := by
  cases hf : cs.find? path with
  | some id => exact ⟨id, rfl⟩
  | none => exact absurd h (not_mem_paths_of_find? hf)

theorem eq_of_getElem?_paths (h : cs.paths.Nodup) {i j : CategoryId} {path : AccessPath}
    (hi : cs.paths[i.index]? = some path) (hj : cs.paths[j.index]? = some path) : i = j := by
  obtain ⟨hlt, hi⟩ := List.getElem?_eq_some_iff.mp hi
  obtain ⟨hlt', hj⟩ := List.getElem?_eq_some_iff.mp hj
  have hindex := h.getElem_inj_iff.mp (hi.trans hj.symm)
  cases i
  cases j
  exact congrArg CategoryId.mk hindex

theorem Enrolled.enter_again (h : cs.Enrolled entries) (hu : cs.Unfrozen) {path : AccessPath}
    {o : OccurrenceId} (he : (path, o) ∈ entries) : ∃ id, cs.enter path o = .ok (id, cs) := by
  obtain ⟨id, hfind⟩ := find?_of_mem_paths (h.mem_paths _ he)
  obtain ⟨c, hget, rfl⟩ := get?_of_find? hfind
  have hmem := List.mem_of_getElem? hget
  have hsame : c.withMember o = c := by
    rw [Category.withMember, insertNew_of_mem ((h.mem_members c hmem o).mpr he)]
  have hmodify : (cs.modify id fun _ => c) = cs := by
    rw [modify, modify_eq_self fun d hd => Option.some.inj (hget.symm.trans hd)]
  refine ⟨id, ?_⟩
  rw [enter_of_find? hfind hget (hu c hmem), hsame, hmodify]

variable {mayBeStored : Bool}

theorem searched_sublist (cs : Categories) : cs.searched.Sublist cs.paths :=
  List.filter_sublist.map _

theorem Headed.mem_searched_or_eq (h : cs.Headed mayBeStored) {path : AccessPath}
    (hpath : path ∈ cs.paths) :
    path ∈ cs.searched ∨ path = masterPath cs.searched mayBeStored := by
  obtain ⟨⟨id, _, hid, hmaster⟩, hoccupied⟩ := h
  obtain ⟨c, hc, rfl⟩ := List.mem_map.mp hpath
  by_cases hempty : c.members = []
  · right
    obtain ⟨i, hi⟩ := List.mem_iff_getElem?.mp hc
    have hieq : CategoryId.mk i = id := (hmaster ⟨i⟩ c hi).mp (hoccupied c hc hempty)
    rw [← hieq, getElem?_paths, show cs.get? ⟨i⟩ = some c from hi] at hid
    exact Option.some.inj hid
  · left
    exact List.mem_map_of_mem (List.mem_filter.mpr ⟨hc, by simpa using hempty⟩)

/-- What the searched paths call for is what all paths call for. -/
theorem Headed.masterPath_eq (h : cs.Headed mayBeStored) (hpaths : cs.paths.Nodup) :
    masterPath cs.paths mayBeStored = masterPath cs.searched mayBeStored := by
  by_cases hold : masterPath cs.searched mayBeStored ∈ cs.searched
  · have hsub : cs.paths ⊆ cs.searched := fun path hpath =>
      (h.mem_searched_or_eq hpath).elim id fun he => he ▸ hold
    have hsame := cs.searched_sublist.eq_of_length_le (List.subperm_of_subset hpaths hsub).length_le
    rw [hsame]
  · -- the master has been added for itself, and then its path has no key
    have hscan : AccessPath.scan ∉ cs.searched :=
      fun hmem => hold (by rw [masterPath, if_pos hmem]; exact hmem)
    obtain ⟨id, _, hid, _⟩ := h.master
    have hnew := List.mem_of_getElem? hid
    cases mayBeStored with
    | true =>
      have hm : masterPath cs.searched true = .scan := by
        rw [masterPath, if_neg hscan, if_pos rfl] at hold ⊢
        cases hfind : cs.searched.find? fun path => path.kind.isKeyed with
        | none => rfl
        | some path =>
          rw [hfind, Option.getD_some] at hold
          exact absurd (List.mem_of_find?_eq_some hfind) hold
      rw [hm] at hnew ⊢
      rw [masterPath, if_pos hnew]
    | false =>
      have hm : masterPath cs.searched false = .neverStored := by
        rw [masterPath, if_neg hscan]
        rfl
      have hscan' : AccessPath.scan ∉ cs.paths := fun hmem => by
        rcases h.mem_searched_or_eq hmem with hmem | he
        · exact hscan hmem
        · rw [hm] at he
          cases he
      rw [hm, masterPath, if_neg hscan']
      rfl

theorem Headed.electMaster_eq (h : cs.Headed mayBeStored) (hpaths : cs.paths.Nodup) :
    (cs.electMaster mayBeStored).2 = cs := by
  obtain ⟨id, hmasterId, hid, hmaster⟩ := h.master
  obtain ⟨i, hfind⟩ := find?_of_mem_paths (List.mem_of_getElem? hid)
  obtain rfl : i = id := eq_of_getElem?_paths hpaths (getElem?_paths_of_find? hfind) hid
  have hmarked : ∀ c, cs.get? i = some c → c.master = true := fun c hc => (hmaster i c hc).mpr rfl
  have hmodify : ((cs.modify i fun c => { c with master := false }).modify i fun c =>
      { c with master := true }) = cs := by
    rw [modify, modify, List.modify_modify_eq, modify_eq_self fun c hc => ?_]
    rw [Function.comp_apply, ← hmarked c hc]
  have hmove : cs.moveMaster i = cs := by
    simp only [moveMaster, hmasterId, hmodify]
    rw [← hmasterId]
  rw [electMaster, nominate_eq, h.masterPath_eq hpaths, ensure, hfind]
  exact hmove

end Categories

namespace Program

variable {p q : Program} {plan : List Search} {arrayIndexing : Bool}

theorem recordAll_again {more : List Search} (hlisted : p.Listed plan)
    (hmore : ∀ s ∈ more, ∃ k id, p.constraint? s.target = some k ∧
      k.categories.enter s.path s.partner = .ok (id, k.categories)) :
    ∃ q, p.recordAll more = (none, q) ∧ q.constraints = p.constraints ∧
      q.Listed (plan ++ more) := by
  -- the categories stay as they are, so the searches that follow are still entered in them
  induction more generalizing p plan with
  | nil => exact ⟨p, rfl, rfl, by simpa using hlisted⟩
  | cons s rest ih =>
    obtain ⟨k, id, hk, henter⟩ := hmore s List.mem_cons_self
    have hrecord : p.record s = .ok (p.withLookup s id k.categories) := by
      simp only [record_eq, hk, henter, Except.map]
    have hsame : (p.withLookup s id k.categories).constraints =
        p.constraints := modify_eq_self fun k' hk' => by
      rw [Option.some.inj (hk.symm.trans hk')]
    obtain ⟨q, hrest, hq, hlisted'⟩ := ih (hlisted.withLookup s id k.categories) fun s' hs' => by
      rw [constraint?, hsame]
      exact hmore s' (List.mem_cons_of_mem _ hs')
    exact ⟨q, by rw [recordAll, hrecord]; exact hrest, hq.trans hsame, by simpa using hlisted'⟩

theorem Resolves.eq_of_request_eq (hpaths : ∀ k ∈ p.constraints, k.categories.paths.Nodup)
    {l l' : Lookup} (hl : p.Resolves l) (hl' : p.Resolves l') (he : l.request = l'.request) :
    l = l' := by
  obtain ⟨u, k, hu, hk, hpath⟩ := hl
  obtain ⟨u', k', hu', hk', hpath'⟩ := hl'
  simp only [Lookup.request, Prod.mk.injEq] at he
  obtain ⟨hpartner, hsame, hdirect⟩ := he
  rw [← hpartner, hu] at hu'
  cases hu'
  rw [hk] at hk'
  cases hk'
  rw [← hsame] at hpath'
  have hcategory :=
    Categories.eq_of_getElem?_paths (hpaths k (List.mem_of_getElem? hk)) hpath hpath'
  cases l
  cases l'
  cases hpartner
  cases hsame
  cases hdirect
  cases hcategory
  rfl

theorem eq_of_map_request_eq (hpaths : ∀ k ∈ p.constraints, k.categories.paths.Nodup)
    {ls ls' : List Lookup} (hl : ∀ l ∈ ls, p.Resolves l) (hl' : ∀ l ∈ ls', p.Resolves l)
    (he : ls'.map Lookup.request = ls.map Lookup.request) : ls' = ls := by
  induction ls generalizing ls' with
  | nil => exact List.map_eq_nil_iff.mp he
  | cons l ls ih =>
    cases ls' with
    | nil => cases he
    | cons l' ls' =>
      obtain ⟨hone, hrest⟩ := List.cons.inj he
      have hsame :=
        (hl' l' List.mem_cons_self).eq_of_request_eq hpaths (hl l List.mem_cons_self) hone
      rw [hsame, ih (fun x hx => hl x (List.mem_cons_of_mem _ hx))
        (fun x hx => hl' x (List.mem_cons_of_mem _ hx)) hrest]

theorem Listed.occurrences_eq (h : p.Listed plan) (h' : q.Listed plan) (hpq : p.Reindexed q)
    (hp : p.Indexed) (hq : q.Indexed) (hpaths : ∀ k ∈ q.constraints, k.categories.paths.Nodup) :
    q.occurrences = p.occurrences := by
  apply List.ext_getElem?
  intro i
  cases ho : p.occurrences[i]? with
  | none =>
    have hlen := congrArg List.length hpq.occurrences_eq
    rw [List.length_map, List.length_map] at hlen
    rw [List.getElem?_eq_none_iff] at ho ⊢
    omega
  | some o =>
    obtain ⟨ls, hls⟩ := hpq.occurrence? (o := ⟨i⟩) ho
    have hrequest := (h' ⟨i⟩ _ hls).trans (h ⟨i⟩ o ho).symm
    have hsame : ls = o.lookups := eq_of_map_request_eq hpaths
      (fun l hl => hpq.resolves (hp o (List.mem_of_getElem? ho) l hl))
        (hq _ (List.mem_of_getElem? hls)) hrequest
    rw [hsame] at hls
    exact hls

theorem Assigned.listed (h : p.Assigned q arrayIndexing) (hp : p.WellFormed) :
    q.Listed (p.active.flatMap (p.planOf arrayIndexing)) := by
  intro id o ho
  obtain ⟨u, hu, _⟩ := getElem?_of_map_eq h.reindexed.occurrences_eq ho
  have hmem : u ∈ p.occurrences := List.mem_of_getElem? hu
  have hid : u.id = id := hp.id_of_occurrence? hu
  obtain ⟨lookups, hlookups, hmap⟩ := h.lookups u hmem
  rw [hid, ho] at hlookups
  cases hlookups
  rw [← hid, hp.filter_plan arrayIndexing hmem]
  exact hmap

theorem Assigned.passive (h : p.Assigned q arrayIndexing) (hp : p.WellFormed) {o : Occurrence}
    (ho : o ∈ q.occurrences) (ha : o.isActive = false) : o.lookups = [] := by
  obtain ⟨i, hi⟩ := List.mem_iff_getElem?.mp ho
  obtain ⟨u, hu, he⟩ := getElem?_of_map_eq h.reindexed.occurrences_eq hi
  have hua : u ∉ p.active := fun hmem => by
    have hactive := (congrArg Occurrence.isActive he).symm.trans (mem_active.mp hmem).2
    rw [show o.isActive = true from hactive] at ha
    cases ha
  obtain ⟨lookups, hlookups, hmap⟩ := h.lookups u (List.mem_of_getElem? hu)
  rw [hp.id_of_occurrence? (o := ⟨i⟩) hu, show q.occurrence? ⟨i⟩ = some o from hi] at hlookups
  rw [if_neg hua] at hmap
  rw [Option.some.inj hlookups]
  simpa using hmap

theorem Assigned.nodup_paths (h : p.Assigned q arrayIndexing) (hp : p.WellFormed) :
    ∀ k ∈ q.constraints, k.categories.paths.Nodup := fun k hk => by
  have hq : q.WellFormed := hp.of_bare_eq h.reindexed.bare_eq
  exact (h.categories k.id k (hq.constraint?_id hk)).2.nodup_paths

theorem Assigned.electMasters_eq (h : p.Assigned q arrayIndexing) (hp : p.WellFormed) :
    q.electMasters = q := by
  have hq : q.WellFormed := hp.of_bare_eq h.reindexed.bare_eq
  have hsame : q.constraints.map
      (fun k => { k with categories := (k.categories.electMaster k.mayBeStored).2 }) =
      q.constraints.map id := List.map_congr_left fun k hk => by
    have hheaded := (h.categories k.id k (hq.constraint?_id hk)).1
    rw [hheaded.electMaster_eq (h.nodup_paths hp k hk)]
    rfl
  rw [electMasters, hsame, List.map_id]

theorem Assigned.again (h : p.Assigned q arrayIndexing) (hp : p.WellFormed) (hu : q.Unfrozen) :
    q.assignLookups arrayIndexing =
      .done (.ofPlan (p.active.flatMap (p.planOf arrayIndexing)) q.categoryCount) q := by
  have hplan : q.searchPlan? arrayIndexing = some (p.active.flatMap (p.planOf arrayIndexing)) := by
    rw [← searchPlan?_bare, h.reindexed.bare_eq, searchPlan?_bare, hp.searchPlan?_eq]
  have hfits : ∀ s ∈ p.active.flatMap (p.planOf arrayIndexing), s.Fits p := fun s hs => hp.fits hs
  have hcleared : q.clearLookups.Listed [] := clearLookups_listed fun _ ho ha => h.passive hp ho ha
  have henter : ∀ s ∈ p.active.flatMap (p.planOf arrayIndexing), ∃ k id,
      q.clearLookups.constraint? s.target = some k ∧
      k.categories.enter s.path s.partner = .ok (id, k.categories) := fun s hs => by
    obtain ⟨k, hk⟩ := (hfits s hs).target
    obtain ⟨cs, hk', _⟩ := h.reindexed.constraint? hk
    have hmem : s ∈ (p.active.flatMap (p.planOf arrayIndexing)).filter fun t =>
        t.target = s.target :=
      List.mem_filter.mpr ⟨hs, decide_eq_true rfl⟩
    obtain ⟨id, hid⟩ :=
      (h.categories s.target _ hk').2.enter_again (hu.constraint? hk')
        (List.mem_map_of_mem (f := Search.entry) hmem)
    exact ⟨_, id, hk', hid⟩
  obtain ⟨t, hrecord, hconstraints, hlisted⟩ := recordAll_again hcleared henter
  obtain ⟨hclear, hclearu, hcleari, _⟩ := q.clearLookups_carries
  obtain ⟨t', hrecord', hre, _, hindexed⟩ :=
    recordAll_spec (hclearu hu) (hcleari h.indexed) fun s hs =>
    ((hfits s hs).reindexed h.reindexed).reindexed hclear
  rw [hrecord] at hrecord'
  cases hrecord'
  have hqt : q.Reindexed t := hclear.trans hre
  -- no two categories share a path, so equal requests are equal lookups
  have hocc : t.occurrences = q.occurrences :=
    (h.listed hp).occurrences_eq hlisted hqt h.indexed hindexed fun k hk =>
    h.nodup_paths hp k (hconstraints ▸ hk)
  have ht : t = q := by
    have hsymbols := hqt.symbols_eq
    have hrules := hqt.rules_eq
    cases t
    cases q
    cases hsymbols
    cases hrules
    cases hocc
    cases hconstraints
    rfl
  subst ht
  simp only [assignLookups, hplan, hrecord, h.electMasters_eq hp]

end Program

end ConstraintRules
