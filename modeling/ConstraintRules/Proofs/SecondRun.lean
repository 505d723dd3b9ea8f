import ConstraintRules.Proofs.HistoryAgain
import ConstraintRules.Proofs.IndexingAgain
import ConstraintRules.Proofs.PassOrder

/-! The pipeline a second time. Every pass leaves its part as it finds it, unless
a category was frozen in the first run. -/

namespace ConstraintRules

open Activation

namespace Program

variable {p q : Program}

section Pass

theorem bare_eq_of_done {α : Type} {x : Part} {o : Outcome α} {a : α}
    (ho : o.Leaves fun q => q.only x = p.only x) (h : o = .done a q) : q.bare = p.bare := by
  rw [h] at ho
  exact bare_eq_of_only_eq ho

theorem withHints?_again (hbare : q.bare = p.bare) {r r' : Rule} (h : p.withHints? r = some r') :
    q.withHints? r' = some r' := by
  rw [withHints?] at h
  by_cases hj : r.hasJoin = true
  · rw [if_pos hj] at h
    obtain ⟨g, hg, rfl⟩ := Option.map_eq_some_iff.mp h
    have hgraph : q.joinGraph? { r with hints := some g.hints } = some g := by
      rw [← joinGraph?_bare, hbare, ← hg, ← p.joinGraph?_bare]
      rfl
    rw [withHints?, hgraph,
      if_pos (show Rule.hasJoin { r with hints := some g.hints } = true from hj)]
    rfl
  · rw [if_neg hj] at h
    cases h
    rw [withHints?, if_neg hj]

theorem planJoins_again {stats : JoinStats} (h : p.planJoins = .done stats q) :
    q.planJoins = .done stats q := by
  have hbare : q.bare = p.bare :=
    bare_eq_of_done (p.planJoins_frame (show Part.history ≠ .joins by decide)) h
  cases hrules : p.rules.mapM p.withHints? with
  | none =>
    rw [planJoins, hrules] at h
    cases h
  | some rules =>
    rw [planJoins, hrules] at h
    obtain ⟨rfl, rfl⟩ := Outcome.done.inj h
    have hagain : rules.mapM ({ p with rules } : Program).withHints? = some rules := by
      rw [mapM_eq_some_iff]
      apply List.map_congr_left
      intro r' hr'
      have hmem : some r' ∈ p.rules.map p.withHints? := by
        rw [mapM_eq_some_iff.mp hrules]
        exact List.mem_map_of_mem hr'
      obtain ⟨r, _, hr⟩ := List.mem_map.mp hmem
      exact withHints?_again hbare hr
    simp only [planJoins, hagain]

theorem withSession_eq_done {α : Type} {session : Option (Except DanglingCall Session)}
    {next : Session → Outcome α} {a : α} (h : Outcome.withSession p session next = .done a q) :
    ∃ s, session = some (.ok s) ∧ next s = .done a q := by
  rcases session with _ | _ | s
  · cases h
  · cases h
  · exact ⟨s, rfl, h⟩

theorem delayStorage_again {stats : StorageStats} (h : p.delayStorage = .done stats q) :
    q.delayStorage = .done { stats with unstored := 0 } q := by
  have hbare : q.bare = p.bare :=
    bare_eq_of_done (p.delayStorage_frame (show Part.history ≠ .storage by decide)) h
  obtain ⟨s, hs, hdone⟩ := withSession_eq_done h
  rw [← p.observationSession?_bare, ← hbare, observationSession?_bare] at hs
  obtain ⟨rfl, rfl⟩ := Outcome.done.inj hdone
  generalize hos : p.occurrences.map (p.delay (s.rememberAll p.bodies)) = os at *
  have hnever : ∀ o ∈ os, ¬p.canWait (s.rememberAll p.bodies) o = true := by
    intro o' ho' hw'
    rw [← hos] at ho'
    obtain ⟨o, _, rfl⟩ := List.mem_map.mp ho'
    rw [delay] at hw'
    by_cases hw : p.canWait (s.rememberAll p.bodies) o = true
    · rw [if_pos hw, canWait, Bool.and_false, Bool.false_and] at hw'
      cases hw'
    · rw [if_neg hw] at hw'
      exact hw hw'
  have hcount : os.countP (p.canWait (s.rememberAll p.bodies)) = 0 := List.countP_eq_zero.mpr hnever
  have hsame : os.map (p.delay (s.rememberAll p.bodies)) = os.map id :=
    List.map_congr_left fun o ho => by rw [delay, if_neg (hnever o ho), id]
  rw [List.map_id] at hsame
  rw [delayStorage, hs]
  show Outcome.done (StorageStats.mk (os.countP (p.canWait (s.rememberAll p.bodies))) _ _)
    { p with occurrences := os.map (p.delay (s.rememberAll p.bodies)) } = _
  simp only [hcount, hsame, rules_activeOf_eq hbare]

theorem findRemovees_again {stats : RemovalStats} (h : p.findRemovees = .done stats q) :
    q.findRemovees = .done stats q := by
  have hbare : q.bare = p.bare :=
    bare_eq_of_done (p.findRemovees_frame (show Part.history ≠ .removees by decide)) h
  obtain ⟨s, hs, hdone⟩ := withSession_eq_done h
  rw [← p.callSession?_bare, ← p.removalFacts?_bare, ← hbare, callSession?_bare, removalFacts?_bare]
    at hs
  rw [← constraintNodes_eq hbare] at hdone
  obtain ⟨hstats, hq⟩ := Outcome.done.inj hdone
  generalize ht : s.rememberAll (q.constraints.map fun c => .constraint c.id) = t at hstats hq
  have hremovees : ∀ c, q.removeesOf t c = p.removeesOf t c := fun c => by
    rw [removeesOf, removeesOf, constraintIds_eq hbare]
  have hlisted : p.constraints.map (p.listRemovees t) = q.constraints :=
    congrArg Program.constraints hq
  have hsame : q.constraints.map (q.listRemovees t) = q.constraints := by
    have hlist : q.listRemovees t = p.listRemovees t := funext fun c => by
      rw [listRemovees, listRemovees, hremovees]
    rw [hlist, ← hlisted, List.map_map]
    rfl
  have hcounts : q.removalStats t = stats := by
    rw [← hstats, removalStats, removalStats, ← hlisted]
    simp only [hremovees, List.countP_map, List.flatMap_map]
    rfl
  rw [findRemovees, noteCalls, hs, Outcome.withSession]
  simp only [ht, hsame, hcounts]

theorem clearRecursion_again {stats : RecursionStats} (h : p.clearRecursion = .done stats q) :
    q.clearRecursion = .done { stats with cleared := 0 } q := by
  have hbare : q.bare = p.bare :=
    bare_eq_of_done (p.clearRecursion_frame (show Part.history ≠ .recursion by decide)) h
  obtain ⟨s, hs, hdone⟩ := withSession_eq_done h
  rw [← p.callSession?_bare, ← p.stackFacts?_bare, ← hbare, callSession?_bare, stackFacts?_bare]
    at hs
  rw [← constraintNodes_eq hbare] at hdone
  obtain ⟨hstats, hq⟩ := Outcome.done.inj hdone
  generalize ht : s.rememberAll (q.constraints.map fun c => .constraint c.id) = t at hstats hq
  have hcleared : p.constraints.map t.clearMark = q.constraints := congrArg Program.constraints hq
  have hsame : q.constraints.map t.clearMark = q.constraints := by
    rw [← hcleared, List.map_map]
    apply List.map_congr_left
    intro c _
    simp only [Function.comp_apply, Session.clearMark, Bool.and_assoc, Bool.and_self]
  have hnone : (q.constraints.countP fun c => c.isRecursive && !t.activatesItself c.id) = 0 := by
    rw [← hcleared, List.countP_map, List.countP_eq_zero]
    intro c _
    simp [Session.clearMark, Bool.and_assoc]
  have hcount : (q.constraints.countP fun c => c.isRecursive && t.activatesItself c.id) =
      p.constraints.countP fun c => c.isRecursive && t.activatesItself c.id := by
    rw [← hcleared, List.countP_map]
    apply List.countP_congr
    intro c _
    simp [Session.clearMark]
  rw [clearRecursion, noteCalls, hs, Outcome.withSession]
  simp only [ht, hsame, recursionStats, hnone, hcount, ← hstats]

end Pass

theorem stats_of_assignLookups {arrayIndexing : Bool} {stats : LookupStats} {plan : List Search}
    (hplan : p.searchPlan? arrayIndexing = some plan)
    (h : p.assignLookups arrayIndexing = .done stats q) :
    stats = .ofPlan plan q.categoryCount := by
  rw [assignLookups, hplan] at h
  cases hrecord : p.clearLookups.recordAll plan with
  | mk error t =>
    simp only [hrecord] at h
    cases error with
    | some e => cases h
    | none =>
      obtain ⟨rfl, rfl⟩ := Outcome.done.inj h
      rfl

theorem assignLookups_again (steps : List BuildStep) {arrayIndexing : Bool} {stats : LookupStats}
    (h : (build steps).assignLookups arrayIndexing = .done stats q) :
    q.assignLookups arrayIndexing = .done stats q := by
  have hready := build_ready steps
  obtain ⟨_, _, hdone, hq, _⟩ := assignLookups_ready hready arrayIndexing
  rw [h] at hdone
  obtain ⟨rfl, rfl⟩ := Outcome.done.inj hdone
  rw [stats_of_assignLookups (hready.wellFormed.searchPlan?_eq arrayIndexing) h]
  exact (assigned_of_done h).again hready.wellFormed hq.unfrozen

end Program

/-- The report of a second run: what was marked is counted again, and nothing is cleared. -/
def Report.repeated (r : Report) : Report :=
  { r with
    storage := r.storage.map fun s => { s with unstored := 0 }
    recursion := r.recursion.map fun s => { s with cleared := 0 }
    history := r.history.map fun _ => ⟨0, 0, 0⟩ }

theorem Report.keep_repeated (x : Part) (r : Report) : r.repeated.keep x = (r.keep x).repeated := by
  cases x <;> rfl

namespace Preparation

theorem andThen_again {α : Type} {pass : Program → Outcome α} {p q : Program} {f : α → Report}
    {g : α → α} {r : Report} (hpass : ∀ {s t}, pass p = .done s t → pass t = .done (g s) t)
    (hf : ∀ s, f (g s) = (f s).repeated)
    (h : ((pass p).andThen fun s q => .done (f s) q) = .done r q) :
    ((pass q).andThen fun s q => .done (f s) q) = .done r.repeated q := by
  obtain ⟨s, t, hdone, ht⟩ := Outcome.andThen_eq_done h
  obtain ⟨rfl, rfl⟩ := Outcome.done.inj ht
  rw [hpass hdone, Outcome.andThen, hf]

theorem perform_again (steps : List BuildStep) (y : Preparation) {r : Report} {q : Program}
    (h : y.perform {} (Program.build steps) = .done r q) : y.perform {} q = .done r.repeated q := by
  cases y with
  | lookups arrayIndexing =>
    exact andThen_again (g := id) (Program.assignLookups_again steps) (fun _ => rfl) h
  | joins => exact andThen_again (g := id) Program.planJoins_again (fun _ => rfl) h
  | storage => exact andThen_again Program.delayStorage_again (fun _ => rfl) h
  | removees => exact andThen_again (g := id) Program.findRemovees_again (fun _ => rfl) h
  | recursion => exact andThen_again Program.clearRecursion_again (fun _ => rfl) h

end Preparation

namespace Program

variable {p q : Program} {settings : Settings} {r : Report}

theorem Rechecked.only_eq (h : p.Rechecked q) (hc : q.constraints = p.constraints) {x : Part}
    (hx : x ≠ .history) :
    q.only x = p.only x := by
  have hrules : ∀ rs : List Rule,
      (rs.map Rule.kept).map (Rule.only x) = rs.map (Rule.only x) := fun rs => by
    rw [List.map_map]
    exact List.map_congr_left fun r _ => r.only_needsHistory hx true
  have hoccs : ∀ os : List Occurrence,
      (os.map Occurrence.checked).map (Occurrence.only x) = os.map (Occurrence.only x) :=
    fun os => by
      rw [List.map_map]
      exact List.map_congr_left fun o _ => o.only_checkHistory hx true
  rw [only, only, h.symbols_eq, hc, ← hrules, h.rules_eq, hrules, ← hoccs, h.occurrences_eq, hoccs]

theorem Prepared.performAll_again {steps : List BuildStep}
    (hp : (build steps).Prepared settings r p) (hq : ∀ x, x ≠ Part.history → q.only x = p.only x) :
    q.performAll {} settings.preparations = .done r.repeated q := by
  have hview : ∀ y ∈ settings.preparations,
      (y.perform {} q).view y.part = (Outcome.done r.repeated q).view y.part := by
    intro y hy
    obtain ⟨r₁, q₁, hone, _⟩ := y.perform_ready (build_ready steps) {}
    have hpart := y.part_ne_history
    have hran := hp.ran y hy
    rw [hone] at hran
    obtain ⟨hr, honly⟩ := Outcome.done.inj hran
    have hsame : (y.perform {} q).view y.part = (y.perform {} q₁).view y.part :=
      Preparation.perform_congr (by simp only [Outcome.view, hq y.part hpart, honly])
    rw [hsame, y.perform_again steps hone]
    simp only [Outcome.view, Report.keep_repeated, hr, hq y.part hpart, honly]
  have hdone : ∀ y ∈ settings.preparations, ∃ r' q', y.perform {} q = .done r' q' := fun y hy =>
    Outcome.exists_done_of_view (hview y hy)
  obtain ⟨r', q', hrun, hran⟩ := performAll_view settings.nodup_preparations hdone
  -- a part that no wanted pass writes is neither changed nor reported, the first time or the second
  have hall : ∀ x, (Outcome.done r' q').view x = (Outcome.done r.repeated q).view x := fun x => by
    by_cases hx : x ∈ settings.preparations.map Preparation.part
    · obtain ⟨y, hy, rfl⟩ := List.mem_map.mp hx
      rw [hran y hy, hview y hy]
    · have hidle := (Outcome.done.inj (hp.idle x hx)).1
      rw [performAll_frame hx hrun]
      simp only [Outcome.view, Report.keep_repeated, hidle]
      cases x <;> rfl
  obtain ⟨rfl, rfl⟩ := Outcome.eq_of_view_eq hall
  exact hrun

section Frozen

variable {steps : List BuildStep}

theorem Prepared.exists_search (hp : (build steps).Prepared settings r p)
    (hi : settings.indexing = true) {o : Occurrence} (ho : o ∈ p.active) {l : Lookup}
    (hl : l ∈ o.lookups) {u : Occurrence} (hu : p.occurrence? l.partner = some u) :
    ∃ s ∈ (build steps).active.flatMap ((build steps).planOf settings.arrayIndexing),
      s.path = l.path ∧ s.target = u.constraint := by
  have hw := build_wellFormed steps
  obtain ⟨stats, q, hdone, honly⟩ := hp.assigned hi
  have hq := assigned_of_done hdone
  have hmem : o.only .lookups ∈ (p.only .lookups).active := by
    rw [active_only]
    exact List.mem_map_of_mem ho
  rw [honly, active_only] at hmem
  obtain ⟨o₁, ho₁, he⟩ := List.mem_map.mp hmem
  have hlookups := congrArg Occurrence.lookups he
  rw [← show o₁.lookups = o.lookups from hlookups] at hl
  obtain ⟨o', ho', lookups, rfl, hmap⟩ := hq.exists_active hw ho₁
  obtain ⟨s, hs, hls⟩ := List.mem_map.mp (hmap ▸ List.mem_map_of_mem hl)
  obtain ⟨hpartner, hpath⟩ := Lookup.eq_of_request_eq hls.symm
  obtain ⟨u', hu', hplans⟩ := hw.plans_of_mem (List.mem_of_mem_filter ho') hs
  refine ⟨s, List.mem_flatMap.mpr ⟨o', ho', hs⟩, hpath.symm, ?_⟩
  rw [hpartner, hplans.partner_eq] at hu
  obtain ⟨v, _, _, _, hv, rfl⟩ := occurrence?_of_bare_eq hp.bare_eq hu
  rw [hw.occurrence?_id hu'.mem] at hv
  rw [hplans.target_eq, Option.some.inj hv]

theorem Prepared.nodup_paths (hp : (build steps).Prepared settings r p)
    (hi : settings.indexing = true) {k : Constraint} (hk : k ∈ p.constraints) :
    k.categories.paths.Nodup := by
  obtain ⟨stats, q, hdone, honly⟩ := hp.assigned hi
  have hq := assigned_of_done hdone
  have hmem : k.only .lookups ∈ (p.only .lookups).constraints := List.mem_map_of_mem hk
  rw [honly] at hmem
  obtain ⟨k', hk', he⟩ := List.mem_map.mp hmem
  have hsame := congrArg Constraint.categories he
  rw [← show k'.categories = k.categories from hsame]
  exact hq.nodup_paths (build_wellFormed steps) k' hk'

/-- A category that history has frozen is one that the plan has to enter again. -/
theorem Prepared.exists_barred (hp : (build steps).Prepared settings r p)
    (hi : settings.indexing = true) {elision : Bool} {stats : HistoryStats}
    (hdone : p.elideHistory elision = .done stats q) {k : Constraint} (hk : k ∈ q.constraints)
    {c : Category} (hc : c ∈ k.categories.list) (hfrozen : c.frozen = true) :
    ∃ s ∈ (build steps).active.flatMap ((build steps).planOf settings.arrayIndexing),
      q.Barred s := by
  have hw := hp.ready.wellFormed
  have hq := remarked_of_done hw hdone
  have hkget := (hw.of_bare_eq hq.rechecked.bare_eq).constraint?_id hk
  obtain ⟨i, hi'⟩ := List.mem_iff_getElem?.mp hc
  have hcategory : q.category? k.id ⟨i⟩ = some c := by
    rw [category?, hkget]
    exact hi'
  obtain ⟨o, ho, l, hl, u, hu, huk, hid⟩ :=
    elideHistory_frozen hw hp.ready.unfrozen hdone hcategory hfrozen
  obtain ⟨s, hs, hpath, htarget⟩ := hp.exists_search hi ho hl hu
  -- the category of the lookup has the path of the search, and no other category has it
  obtain ⟨k', hk', hpaths⟩ := getElem?_of_map_eq hq.rechecked.paths_eq hkget
  have hresolved :=
    (hp.ready.indexed o (mem_active.mp ho).1 l hl).path_eq hw (mem_occurrences_iff.mpr ⟨_, hu⟩)
    (hw.id_of_occurrence? hu).symm (by rw [huk]; exact hk')
  rw [hpaths, hid, ← hpath] at hresolved
  obtain ⟨j, hfind⟩ := Categories.find?_of_mem_paths (List.mem_of_getElem? hresolved)
  have hnodup : k.categories.paths.Nodup := by
    rw [← hpaths]
    exact hp.nodup_paths hi (List.mem_of_getElem? hk')
  have hj : j = ⟨i⟩ :=
    Categories.eq_of_getElem?_paths hnodup (Categories.getElem?_paths_of_find? hfind) hresolved
  rw [hj] at hfind
  exact ⟨s, hs, k, by rw [htarget, huk]; exact hkget, ⟨i⟩, c, hfind, hi', hfrozen⟩

theorem Prepared.unfrozen (hp : (build steps).Prepared settings r p)
    (hi : settings.indexing = false) (hq : p.Rechecked q) : q.Unfrozen := by
  have hbare := hp.only_eq_bare (build_unannotated steps) (x := .lookups)
    (by simp [Settings.preparations, hi, Preparation.part])
  intro k hk c hc
  obtain ⟨i, hget⟩ := List.mem_iff_getElem?.mp hk
  obtain ⟨k', hk', hpaths⟩ := getElem?_of_map_eq hq.paths_eq hget
  have honly : (p.only .lookups).constraints[i]? = p.bare.constraints[i]? := by rw [hbare]
  rw [only, bare, List.getElem?_map, List.getElem?_map, hk'] at honly
  have hnone := congrArg (fun k => k.categories.paths) (Option.some.inj honly)
  -- without indexing there is no category at all
  have hpath : c.path ∈ k.categories.paths := List.mem_map_of_mem hc
  rw [← hpaths, show k'.categories.paths = [] from hnone] at hpath
  cases hpath

end Frozen

section Optimize

variable {steps : List BuildStep}

theorem optimize_of_barred (hi : settings.indexing = true) {plan : List Search}
    (hplan : q.searchPlan? settings.arrayIndexing = some plan) (h : ∃ s ∈ plan, q.Barred s) :
    ∃ path t, q.optimize settings = .failed (.lookup (.frozen path)) t := by
  obtain ⟨path, t, hfailed⟩ := assignLookups_of_barred hplan h
  refine ⟨path, t, ?_⟩
  simp only [optimize, Outcome.optionally, hi, if_true, hfailed, Outcome.andThen]

theorem Prepared.optimize_again (hp : (build steps).Prepared settings r p)
    {stats : Option HistoryStats}
    (hdone : Outcome.optionally settings.history (elideHistory settings.duplicateElision) p =
      .done stats q)
    (hu : q.Unfrozen) :
    q.optimize settings = .done ({ r with history := stats } : Report).repeated q := by
  cases hh : settings.history with
  | false =>
    rw [hh] at hdone
    obtain ⟨rfl, rfl⟩ := Outcome.done.inj hdone
    rw [optimize_eq, hp.performAll_again fun _ _ => rfl, hh]
    rfl
  | true =>
    rw [hh] at hdone
    obtain ⟨first, t, hfirst, ht⟩ := Outcome.andThen_eq_done hdone
    obtain ⟨rfl, rfl⟩ := Outcome.done.inj ht
    have hre := remarked_of_done hp.ready.wellFormed hfirst
    obtain ⟨hconstraints, hsecond⟩ := elideHistory_again hp.ready.wellFormed hfirst hu
    rw [optimize_eq, hp.performAll_again fun _ hx => hre.rechecked.only_eq hconstraints hx, hh]
    simp only [Outcome.andThen, Outcome.optionally, if_true, hsecond]
    rfl

/-- Some category has been read. -/
def HasFrozen (p : Program) : Prop := ∃ k ∈ p.constraints, ∃ c ∈ k.categories.list, c.frozen = true

theorem unfrozen_of_not_hasFrozen (h : ¬p.HasFrozen) : p.Unfrozen := fun k hk c hc => by
  by_contra hfrozen
  exact h ⟨k, hk, c, hc, by simpa using hfrozen⟩

/-- A second run of the pipeline changes nothing and clears nothing more, unless indexing is
wanted and the first run has left a frozen category. -/
theorem optimize_twice (steps : List BuildStep) (settings : Settings) : ∃ report p,
    (build steps).optimize settings = .done report p ∧
    ((∃ path q, p.optimize settings = .failed (.lookup (.frozen path)) q) ↔
      settings.indexing = true ∧ p.HasFrozen) ∧
    (¬(settings.indexing = true ∧ p.HasFrozen) →
      p.optimize settings = .done report.repeated p) := by
  obtain ⟨r, p, hp⟩ := (build_ready steps).prepared settings
  obtain ⟨stats, q, hdone, hre, _⟩ :=
    optionally_elideHistory hp.ready settings.history settings.duplicateElision
  have hagain : ¬(settings.indexing = true ∧ q.HasFrozen) →
      q.optimize settings = .done ({ r with history := stats } : Report).repeated q := by
    intro hnot
    refine hp.optimize_again hdone ?_
    cases hi : settings.indexing with
    | true => exact unfrozen_of_not_hasFrozen fun hfrozen => hnot ⟨hi, hfrozen⟩
    | false => exact hp.unfrozen hi hre
  refine ⟨{ r with history := stats }, q, ?_, ⟨fun hfailed => ?_, fun hfrozen => ?_⟩, hagain⟩
  · rw [optimize_eq, hp.run, Outcome.andThen, hdone, Outcome.andThen]
  · obtain ⟨path, t, hfailed⟩ := hfailed
    by_contra hnot
    rw [hagain hnot] at hfailed
    cases hfailed
  · obtain ⟨hi, k, hk, c, hc, hfrozen⟩ := hfrozen
    have hplan : q.searchPlan? settings.arrayIndexing =
        some ((build steps).active.flatMap ((build steps).planOf settings.arrayIndexing)) := by
      rw [← searchPlan?_bare, hre.bare_eq, hp.bare_eq, searchPlan?_bare]
      exact (build_wellFormed steps).searchPlan?_eq settings.arrayIndexing
    refine optimize_of_barred hi hplan ?_
    cases hh : settings.history with
    | false =>
      -- only history freezes categories
      rw [hh] at hdone
      obtain ⟨_, rfl⟩ := Outcome.done.inj hdone
      have hunfrozen := hp.ready.unfrozen k hk c hc
      rw [hfrozen] at hunfrozen
      cases hunfrozen
    | true =>
      rw [hh] at hdone
      obtain ⟨first, t, hfirst, ht⟩ := Outcome.andThen_eq_done hdone
      obtain ⟨_, rfl⟩ := Outcome.done.inj ht
      exact hp.exists_barred hi hfirst hk hc hfrozen

/-- Two edges are joined into a path: history reads how the partners are looked up,
and that stops a second run. -/
example :
    ((((build [.ensure "edge" 2, .ensure "path" 2,
      .rule "join" [.kept ⟨0⟩ ["X", "Y"], .kept ⟨1⟩ ["Y", "Z"],
    .call ⟨1⟩ ["X", "Z"]]]).optimize {}).andThen fun _ p =>
      p.optimize {}) matches .failed (.lookup (.frozen _)) _) =
    true := by
  cbv

end Optimize

end Program

end ConstraintRules
