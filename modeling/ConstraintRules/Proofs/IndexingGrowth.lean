import ConstraintRules.Proofs.Indexing

/-! Lookups do not change when a program grows, because the plan for the grown
program begins with the old plan. -/

namespace ConstraintRules

namespace Program

variable {p q : Program}

theorem mapM_eq_some_of_imp {α β : Type} {f g : α → Option β}
    (hfg : ∀ x y, f x = some y → g x = some y)
    {xs : List α} {ys : List β} (h : xs.mapM f = some ys) : xs.mapM g = some ys := by
  rw [mapM_eq_some_iff] at h ⊢
  induction xs generalizing ys with
  | nil => exact h
  | cons x xs ih =>
    cases ys with
    | nil => simp at h
    | cons y ys =>
      simp only [List.map_cons, List.cons.injEq] at h ⊢
      exact ⟨hfg x y h.1, ih h.2⟩

namespace Extends

theorem resolve? (h : p.Extends q) {ids : List OccurrenceId} {os : List Occurrence}
    (hos : p.resolve? ids = some os) :
    q.resolve? ids = some os :=
  mapM_eq_some_of_imp (fun _ _ ho => h.occurrence? ho) hos

theorem searches? (h : p.Extends q) {r : Rule} {link : Option HeadLink} {o : Occurrence}
    {bound : List VarId} {us : List Occurrence} {plan : List Search}
    (hplan : p.searches? r link o bound us = some plan) :
    q.searches? r link o bound us = some plan := by
  induction us generalizing bound plan with
  | nil => exact hplan
  | cons u us ih =>
    simp only [Program.searches?, Option.bind_eq_bind, Option.bind_eq_some_iff] at hplan
    obtain ⟨guard, hguard, c, hc, rest, hrest, heq⟩ := hplan
    obtain ⟨os, hos⟩ := h.constraint? u.constraint c hc
    simp only [Program.searches?, hguard, hos, ih hrest, Option.bind_eq_bind, Option.bind_some]
    exact heq

theorem occurrencePlan? (h : p.Extends q) {arrayIndexing : Bool} {o : Occurrence}
    {plan : List Search} (hplan : p.occurrencePlan? arrayIndexing o = some plan) :
    q.occurrencePlan? arrayIndexing o = some plan := by
  simp only [Program.occurrencePlan?, Option.bind_eq_bind, Option.bind_eq_some_iff] at hplan
  obtain ⟨r, hr, head, hhead, ids, hids, partners, hpartners, hsearches⟩ := hplan
  have hids' : q.partners? o = some ids := by
    rw [partners?, hr] at hids
    rw [partners?, h.rule? hr]
    exact hids
  simp only [Program.occurrencePlan?, h.rule? hr, h.resolve? hhead, hids', h.resolve? hpartners,
    Option.bind_eq_bind, Option.bind_some]
  exact h.searches? hsearches

theorem searchPlan? (h : p.Extends q) (hq : q.WellFormed) {arrayIndexing : Bool}
    {plan plan' : List Search} (hplan : p.searchPlan? arrayIndexing = some plan)
    (hplan' : q.searchPlan? arrayIndexing = some plan') :
    ∃ more, plan' = plan ++ more ∧ ∀ s ∈ more, p.occurrences.length ≤ s.active.index := by
  obtain ⟨new, hnew⟩ := h.occurrences
  have hactive : q.active = p.active ++ new.filter Occurrence.isActive := by
    rw [active, active, ← hnew, List.filter_append]
  obtain ⟨plans, hplans, rfl⟩ := Option.map_eq_some_iff.mp hplan
  have hshared := mapM_eq_some_of_imp (fun _ _ hone => h.occurrencePlan? hone) hplans
  have hone : ∀ o ∈ new.filter Occurrence.isActive, ∃ ss,
      q.occurrencePlan? arrayIndexing o = some ss ∧
      ∀ s ∈ ss, s.Fits q ∧ s.active = o.id := fun o ho =>
    hq.occurrencePlan?_eq_some arrayIndexing (hactive ▸ List.mem_append_right _ ho)
  obtain ⟨plans', hplans', _, hmem⟩ :=
    exists_mapM_eq_some fun o ho => (hone o ho).imp fun _ hss => hss.1
  refine ⟨plans'.flatten, ?_, fun s hs => ?_⟩
  · rw [Program.searchPlan?, hactive, List.mapM_append, hshared, hplans'] at hplan'
    simpa using hplan'.symm
  · obtain ⟨ss, hss, hs⟩ := List.mem_flatten.mp hs
    obtain ⟨o, ho, heq⟩ := (hmem ss).mp hss
    obtain ⟨ss', heq', hfits⟩ := hone o ho
    rw [heq] at heq'
    cases heq'
    obtain ⟨j, hj⟩ := List.mem_iff_getElem?.mp (List.mem_of_mem_filter ho)
    have hget : q.occurrences[p.occurrences.length + j]? = some o := by
      rw [← hnew, List.getElem?_append_right (by omega), Nat.add_sub_cancel_left]
      exact hj
    rw [(hfits s hs).2, hq.occurrence_id _ o hget]
    exact Nat.le_add_right _ _

end Extends

theorem modify_isPrefix {α : Type} {xs ys : List α} (h : xs <+: ys) (i : Nat) (f : α → α) :
    xs.modify i f <+: ys.modify i f := by
  rw [List.prefix_iff_getElem?] at h ⊢
  intro j hj
  rw [List.length_modify] at hj
  rw [List.getElem?_modify, h j hj, List.getElem_modify]
  rfl

theorem isPrefix_modify {α : Type} {xs ys : List α} (h : xs <+: ys) {i : Nat} (hi : xs.length ≤ i)
    (f : α → α) :
    xs <+: ys.modify i f := by
  rw [List.prefix_iff_getElem?] at h ⊢
  intro j hj
  have hne : i ≠ j := by omega
  simp [h j hj, hne]

theorem Extends.record (h : p.Extends q) (hu : p.Unfrozen) {s : Search} (hs : s.Fits p) :
    ∃ p' q', p.record s = .ok p' ∧ q.record s = .ok q' ∧ p'.Extends q' := by
  obtain ⟨k, id, cs, hk, henter, hrecord⟩ := record_eq_ok hu hs
  obtain ⟨os, hk'⟩ := h.constraint? s.target k hk
  refine ⟨_, q.withLookup s id cs, hrecord, by simp only [Program.record, hk', henter]; rfl, ?_,
    h.rules, ?_⟩
  · intro c l hl
    have hget := p.constraint?_modify s.target c fun c => { c with categories := cs }
    have hget' := q.constraint?_modify s.target c fun c => { c with categories := cs }
    rw [show (p.modifyConstraint s.target _).constraint? c = some l from hl] at hget
    obtain ⟨l', hl', rfl⟩ := Option.map_eq_some_iff.mp hget.symm
    obtain ⟨os', hq'⟩ := h.constraint? c l' hl'
    rw [hq', Option.map_some] at hget'
    by_cases hc : s.target = c
    · rw [if_pos hc] at hget' ⊢
      exact ⟨os', hget'⟩
    · rw [if_neg hc] at hget' ⊢
      exact ⟨os', hget'⟩
  · exact modify_isPrefix h.occurrences _ _

theorem Extends.recordAll (h : p.Extends q) (hu : p.Unfrozen) (hi : p.Indexed) {plan : List Search}
    (hplan : ∀ s ∈ plan, s.Fits p) :
    ∃ p' q', p.recordAll plan = (none, p') ∧ q.recordAll plan = (none, q') ∧ p'.Extends q' := by
  induction plan generalizing p q with
  | nil => exact ⟨p, q, rfl, rfl, h⟩
  | cons s rest ih =>
    have hs := hplan s List.mem_cons_self
    obtain ⟨p₁, q₁, hp₁, hq₁, hext⟩ := h.record hu hs
    obtain ⟨p₁', hp₁', hre, hu₁, hi₁⟩ := record_spec hu hi hs
    rw [hp₁] at hp₁'
    cases hp₁'
    obtain ⟨p₂, q₂, hp₂, hq₂, hext₂⟩ := ih hext hu₁ hi₁ fun s' hs' =>
      (hplan s' (List.mem_cons_of_mem _ hs')).reindexed hre
    exact ⟨p₂, q₂, by rw [Program.recordAll, hp₁]; exact hp₂,
      by rw [Program.recordAll, hq₁]; exact hq₂, hext₂⟩

theorem recordAll_append (p : Program) (plan more : List Search) {q : Program}
    (h : p.recordAll plan = (none, q)) :
    p.recordAll (plan ++ more) = q.recordAll more := by
  induction plan generalizing p with
  | nil =>
    cases h
    rfl
  | cons s rest ih =>
    simp only [List.cons_append, recordAll] at h ⊢
    cases hs : p.record s with
    | error e => simp [hs] at h
    | ok p₁ =>
      rw [hs] at h
      exact ih p₁ h

theorem recordAll_isPrefix (hu : q.Unfrozen) (hi : q.Indexed) {os : List Occurrence}
    (hos : os <+: q.occurrences) {more : List Search} (hfits : ∀ s ∈ more, s.Fits q)
    (hfar : ∀ s ∈ more, os.length ≤ s.active.index) :
    os <+: (q.recordAll more).2.occurrences := by
  induction more generalizing q with
  | nil => exact hos
  | cons s rest ih =>
    have hs := hfits s List.mem_cons_self
    obtain ⟨k, id, cs, _, _, hrecord⟩ := record_eq_ok hu hs
    obtain ⟨q', hq', hre, hu', hi'⟩ := record_spec hu hi hs
    rw [hrecord] at hq'
    cases hq'
    have hkept : os <+: (q.withLookup s id cs).occurrences :=
      isPrefix_modify hos (hfar s List.mem_cons_self) _
    rw [recordAll, hrecord]
    exact ih hu' hi' hkept (fun s' hs' => (hfits s' (List.mem_cons_of_mem _ hs')).reindexed hre)
      fun s' hs' => hfar s' (List.mem_cons_of_mem _ hs')

theorem Extends.clearLookups (h : p.Extends q) : p.clearLookups.Extends q.clearLookups :=
  ⟨h.constraint?, h.rules, h.occurrences.map _⟩

theorem Extends.assignLookups (h : p.Extends q) (hp : p.WellFormed) (hq : q.WellFormed)
    (hpu : p.Unfrozen)
    (hqu : q.Unfrozen) (hpi : p.Indexed) (hqi : q.Indexed) (arrayIndexing : Bool) :
    ∃ p' q', p'.occurrences <+: q'.occurrences ∧
      (∃ stats, p.assignLookups arrayIndexing = .done stats p') ∧
      ∃ stats, q.assignLookups arrayIndexing = .done stats q' := by
  obtain ⟨plan, hplan, hfits⟩ := hp.searchPlan?_eq_some arrayIndexing
  obtain ⟨plan', hplan', hfits'⟩ := hq.searchPlan?_eq_some arrayIndexing
  -- `plan` is recorded in both, `more` in the larger program alone
  obtain ⟨more, rfl, hfar⟩ := h.searchPlan? hq hplan hplan'
  obtain ⟨hclear, hclearu, hcleari, _⟩ := p.clearLookups_carries
  obtain ⟨hclear', hclearu', hcleari', _⟩ := q.clearLookups_carries
  have hfirst : ∀ s ∈ plan, s.Fits p.clearLookups := fun s hs => (hfits s hs).reindexed hclear
  have hshared : ∀ s ∈ plan, s.Fits q.clearLookups := fun s hs =>
    (hfits' s (List.mem_append_left _ hs)).reindexed hclear'
  obtain ⟨p₁, q₁, hp₁, hq₁, hext⟩ := h.clearLookups.recordAll (hclearu hpu) (hcleari hpi) hfirst
  obtain ⟨q₁', hq₁', hre', hq₁u, hq₁i⟩ := recordAll_spec (hclearu' hqu) (hcleari' hqi) hshared
  rw [hq₁] at hq₁'
  cases hq₁'
  have hmore : ∀ s ∈ more, s.Fits q₁ := fun s hs =>
    ((hfits' s (List.mem_append_right _ hs)).reindexed hclear').reindexed hre'
  obtain ⟨q₂, hq₂, _⟩ := recordAll_spec hq₁u hq₁i hmore
  have hlength : p₁.occurrences.length = p.occurrences.length := by
    obtain ⟨p₁', hp₁', hre, _⟩ := recordAll_spec (hclearu hpu) (hcleari hpi) hfirst
    rw [hp₁] at hp₁'
    cases hp₁'
    have := congrArg List.length (hclear.trans hre).occurrences_eq
    simpa using this
  have hkept := recordAll_isPrefix hq₁u hq₁i hext.occurrences hmore (hlength ▸ hfar)
  rw [hq₂] at hkept
  have hq₃ := (recordAll_append q.clearLookups plan more hq₁).trans hq₂
  refine ⟨p₁.electMasters, q₂.electMasters, hkept, ?_, ?_⟩
  · rw [Program.assignLookups, hplan]
    simp only [hp₁]
    exact ⟨_, rfl⟩
  · rw [Program.assignLookups, hplan']
    simp only [hq₃]
    exact ⟨_, rfl⟩

end Program

end ConstraintRules
