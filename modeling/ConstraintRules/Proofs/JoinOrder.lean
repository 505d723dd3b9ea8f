import ConstraintRules.Proofs.Indexing

/-! The join order of a rule. The positions bound when a partner is searched
decide the access path. -/

namespace ConstraintRules

/-- The positive head comes first, then the negative heads in order. -/
def HeadPart.rank : HeadPart → Nat
  | .positive => 0
  | .negative n => n + 1

/-- `u` stands before `v` in the join order of their rule. -/
def Occurrence.Precedes (u v : Occurrence) : Prop :=
  u.head.rank < v.head.rank ∨ (u.head = v.head ∧ u.index < v.index)

theorem Occurrence.Precedes.asymm {u v : Occurrence} (h : u.Precedes v) : ¬ v.Precedes u := by
  rintro (hlt | ⟨he, hlt⟩) <;> rcases h with hlt' | ⟨he', hlt'⟩
  · omega
  · rw [he'] at hlt
    exact Nat.lt_irrefl _ hlt
  · rw [he] at hlt'
    exact Nat.lt_irrefl _ hlt'
  · omega

/-- The access path of a search for instances of a constraint, given which positions are bound. -/
inductive Constraint.Chooses (k : Constraint) (bound : Nat → Prop) : AccessPath → Prop
  | neverStored : k.mayBeStored = false → Chooses k bound .neverStored
  | scan : k.mayBeStored = true → (∀ i, ¬ bound i) → Chooses k bound .scan
  | dependencyHash {key : List Nat} : k.mayBeStored = true → (∃ i, bound i) →
    k.setSemantics = true →
    k.dependency = some key → (∀ i ∈ key, bound i) → Chooses k bound (.dependencyHash key)
  | setHash {key : List Nat} : k.mayBeStored = true → (∃ i, bound i) → k.setSemantics = true →
    (∀ determining, k.dependency = some determining → ∃ i ∈ determining, ¬ bound i) →
    key.Pairwise (· < ·) → (∀ i, i ∈ key ↔ bound i) → Chooses k bound (.setHash key)
  | hash {key : List Nat} : k.mayBeStored = true → (∃ i, bound i) → k.setSemantics = false →
    key.Pairwise (· < ·) → (∀ i, i ∈ key ↔ bound i) → Chooses k bound (.hash key)

theorem Constraint.accessPath_chooses (k : Constraint) {bound : Nat → Prop} {positions : List Nat}
    (hasc : positions.Pairwise (· < ·)) (hmem : ∀ i, i ∈ positions ↔ bound i) :
    k.Chooses bound (k.accessPath positions) := by
  unfold Constraint.accessPath
  by_cases hs : k.mayBeStored = true
  · by_cases hnil : positions = []
    · subst hnil
      simp only [hs, Bool.not_true, Bool.false_eq_true, if_false, List.isEmpty_nil, if_true]
      exact .scan hs fun i hi => by simpa using (hmem i).mpr hi
    · have hsome : ∃ i, bound i := by
        obtain ⟨i, hi⟩ := List.exists_mem_of_ne_nil _ hnil
        exact ⟨i, (hmem i).mp hi⟩
      simp only [hs, Bool.not_true, Bool.false_eq_true, if_false,
        List.isEmpty_eq_false_iff.mpr hnil]
      by_cases hset : k.setSemantics = true
      · simp only [hset, Bool.not_true, Bool.false_eq_true, if_false]
        split
        · rename_i key hkey
          by_cases hall : ∀ i ∈ key, i ∈ positions
          · rw [if_pos (by simpa using hall)]
            exact .dependencyHash hs hsome hset hkey fun i hi => (hmem i).mp (hall i hi)
          · rw [if_neg (by simpa using hall)]
            refine .setHash hs hsome hset (fun determining hd => ?_) hasc hmem
            rw [hkey] at hd
            cases hd
            obtain ⟨i, hi, hno⟩ : ∃ i ∈ key, i ∉ positions := by simpa using hall
            exact ⟨i, hi, fun hb => hno ((hmem i).mpr hb)⟩
        · rename_i hnone
          exact .setHash hs hsome hset (fun _ hd => by simp [hnone] at hd) hasc hmem
      · rw [Bool.not_eq_true] at hset
        simp only [hset, Bool.not_false, if_true]
        exact .hash hs hsome hset hasc hmem
  · rw [Bool.not_eq_true] at hs
    simp only [hs, Bool.not_false, if_true]
    exact .neverStored hs

theorem Constraint.Chooses.bound_of_mem_key {k : Constraint} {bound : Nat → Prop}
    {path : AccessPath} (h : k.Chooses bound path) {i : Nat} (hi : i ∈ path.key) : bound i := by
  cases h with
  | neverStored | scan => cases hi
  | dependencyHash _ _ _ _ hkey => exact hkey i hi
  | setHash _ _ _ _ _ hkey | hash _ _ _ _ hkey => exact (hkey i).mp hi

namespace Search

theorem tied_iff {guard : List GuardConjunct} {bound : List VarId} {v : VarId} :
    tied guard bound v = true ↔
    ∃ w ∈ bound, GuardConjunct.equal v w ∈ guard ∨ GuardConjunct.equal w v ∈ guard := by
  simp only [tied, List.any_eq_true]
  constructor
  · rintro ⟨g, hg, hv⟩
    cases g with
    | equal a b =>
      rcases of_decide_eq_true hv with ⟨rfl, hb⟩ | ⟨rfl, ha⟩
      · exact ⟨b, hb, Or.inl hg⟩
      · exact ⟨a, ha, Or.inr hg⟩
    | test _ => cases hv
  · rintro ⟨w, hw, hg | hg⟩
    · exact ⟨_, hg, decide_eq_true (Or.inl ⟨rfl, hw⟩)⟩
    · exact ⟨_, hg, decide_eq_true (Or.inr ⟨rfl, hw⟩)⟩

theorem mem_knownPositions {guard : List GuardConjunct} {bound args : List VarId} {i : Nat} :
    i ∈ knownPositions guard bound args ↔
      ∃ v, args[i]? = some v ∧ (v ∈ bound ∨ tied guard bound v = true) := by
  simp only [knownPositions, List.mem_map, List.mem_filter, Bool.or_eq_true, decide_eq_true_eq,
    Prod.exists, List.mem_zipIdx_iff_getElem?]
  simp

theorem knownPositions_pairwise (guard : List GuardConjunct) (bound args : List VarId) :
    (knownPositions guard bound args).Pairwise (· < ·) := by
  have hall : (args.zipIdx.map Prod.snd).Pairwise (· < ·) := by
    rw [List.zipIdx_map_snd]
    exact List.pairwise_lt_range'
  exact hall.sublist (List.filter_sublist.map _)

end Search

namespace Program

structure Partner (p : Program) (o u : Occurrence) : Prop where
  mem : u ∈ p.occurrences
  rule_eq : u.rule = o.rule
  id_ne : u.id ≠ o.id

/-- The variable has a value when `u` is searched from `o`. -/
def Known (p : Program) (o u : Occurrence) (v : VarId) : Prop :=
  v ∈ o.args ∨ ∃ w, p.Partner o w ∧ w.Precedes u ∧ v ∈ w.args

/-- The condition is asked of a match of `u`: it stands in the guard of the rule, or in that of
the negative head to which `u` belongs. -/
def Asks (p : Program) (u : Occurrence) (g : GuardConjunct) : Prop :=
  ∃ r, p.rule? u.rule = some r ∧
    (g ∈ r.guard ∨ ∃ n head, u.head = .negative n ∧ r.negatives[n]? = some head ∧ g ∈ head.guard)

/-- The argument at a position of `u` is known when `u` is searched from `o`, or an equality
ties it to a variable that is. -/
def BoundAt (p : Program) (o u : Occurrence) (i : Nat) : Prop :=
  ∃ v, u.args[i]? = some v ∧
    (p.Known o u v ∨ ∃ w, p.Known o u w ∧ (p.Asks u (.equal v w) ∨ p.Asks u (.equal w v)))

variable {p : Program}

theorem mem_guardOf? {r : Rule} {u : Occurrence} (hr : p.rule? u.rule = some r)
    {guard : List GuardConjunct} (hguard : r.guardOf? u.head = some guard) (g : GuardConjunct) :
    g ∈ guard ↔ p.Asks u g := by
  have hasks : p.Asks u g ↔
      g ∈ r.guard ∨ ∃ n head, u.head = .negative n ∧ r.negatives[n]? = some head ∧
        g ∈ head.guard := by
    simp only [Asks, hr, Option.some.injEq, exists_eq_left']
  rw [hasks]
  cases hpart : u.head with
  | positive =>
    rw [hpart] at hguard
    cases hguard
    simp
  | negative n =>
    rw [hpart] at hguard
    obtain ⟨head, hhead, rfl⟩ := Option.map_eq_some_iff.mp hguard
    simp [hhead]

theorem WellFormed.occurrences_pairwise (h : p.WellFormed) {r : Rule} (hr : r ∈ p.rules) :
    r.occurrences.Pairwise fun a b =>
      ∀ u v, p.occurrence? a = some u → p.occurrence? b = some v → u.Precedes v := by
  have hplace : ∀ (part : HeadPart) (i : Nat) (id : OccurrenceId), (r.part part)[i]? = some id →
      ∀ u, p.occurrence? id = some u → u.head = part ∧ u.index = i := by
    intro part i id hid u hu
    obtain ⟨u', hu', _, hhead, hindex⟩ := h.resolved r hr part i id hid
    rw [hu] at hu'
    cases hu'
    exact ⟨hhead, hindex⟩
  have hwithin : ∀ part, (r.part part).Pairwise fun a b =>
      ∀ u v, p.occurrence? a = some u → p.occurrence? b = some v → u.Precedes v := by
    intro part
    refine List.pairwise_iff_getElem.mpr fun i j hi hj hij u v hu hv => ?_
    obtain ⟨hhead, hindex⟩ := hplace part i _ (List.getElem?_eq_getElem hi) u hu
    obtain ⟨hhead', hindex'⟩ := hplace part j _ (List.getElem?_eq_getElem hj) v hv
    exact Or.inr ⟨hhead.trans hhead'.symm, by omega⟩
  have hnegative : ∀ n (hn : n < r.negatives.length),
      r.part (.negative n) = (r.negatives[n]).occurrences := by
    intro n hn
    simp [Rule.part, List.getElem?_eq_getElem hn]
  have hpart : ∀ n (hn : n < r.negatives.length), ∀ id ∈ (r.negatives[n]).occurrences,
      ∀ u, p.occurrence? id = some u → u.head = .negative n := by
    intro n hn id hid u hu
    rw [← hnegative n hn] at hid
    obtain ⟨i, hi⟩ := List.mem_iff_getElem?.mp hid
    exact (hplace _ i id hi u hu).1
  rw [Rule.occurrences, List.pairwise_append, List.pairwise_flatMap]
  -- within a negative head, from one negative head to a later one, and from the
  -- positive head to a negative one
  refine ⟨hwithin .positive, ⟨fun n hn => ?_, List.pairwise_iff_getElem.mpr ?_⟩, ?_⟩
  · obtain ⟨i, hi, rfl⟩ := List.getElem_of_mem hn
    rw [← hnegative i hi]
    exact hwithin _
  · intro i j hi hj hij a ha b hb u v hu hv
    left
    rw [hpart i hi a ha u hu, hpart j hj b hb v hv]
    exact Nat.succ_lt_succ hij
  · intro a ha b hb u v hu hv
    obtain ⟨i, hi⟩ := List.mem_iff_getElem?.mp ha
    obtain ⟨n, hn, hb⟩ := List.mem_flatMap.mp hb
    obtain ⟨j, hj, rfl⟩ := List.getElem_of_mem hn
    left
    rw [(hplace .positive i a hi u hu).1, hpart j hj b hb v hv]
    exact Nat.succ_pos j

theorem WellFormed.partners_ordered (h : p.WellFormed) {o : Occurrence} (ho : o ∈ p.occurrences) :
    ∃ ids us, p.partners? o = some ids ∧ p.resolve? ids = some us ∧ (∀ u, u ∈ us ↔ p.Partner o u) ∧
      us.Pairwise Occurrence.Precedes := by
  obtain ⟨r, hr, hro, _⟩ := h.rule_mem ho
  obtain ⟨ids, us, hids, hus, hmem⟩ := h.partners_eq ho
  refine ⟨ids, us, hids, hus, fun u => ?_, ?_⟩
  · rw [hmem]
    exact ⟨fun hu => ⟨hu.1, hu.2.1, hu.2.2⟩, fun hu => ⟨hu.mem, hu.rule_eq, hu.id_ne⟩⟩
  · rw [partners?, hro, Option.map_some] at hids
    cases hids
    have hsub : r.occurrences.filter (fun q => decide (q ≠ o.id)) ⊆ r.occurrences :=
      fun q hq => List.mem_of_mem_filter hq
    obtain ⟨us', hus', hmap, _⟩ := h.resolve?_eq_some hr hsub
    rw [hus] at hus'
    cases hus'
    have hpair := (h.occurrences_pairwise hr).filter fun q => decide (q ≠ o.id)
    rw [← hmap, List.pairwise_map] at hpair
    refine hpair.imp_of_mem fun hu hv huv => huv _ _ ?_ ?_
    · exact h.occurrence?_id ((hmem _).mp hu).1
    · exact h.occurrence?_id ((hmem _).mp hv).1

theorem mem_bound_iff {o u : Occurrence} {us before after : List Occurrence}
    (hus : ∀ u, u ∈ us ↔ p.Partner o u) (hord : us.Pairwise Occurrence.Precedes)
    (hsplit : us = before ++ u :: after) {v : VarId} :
    v ∈ o.args ++ before.flatMap Occurrence.args ↔ p.Known o u v := by
  have hbefore : ∀ w, w ∈ before ↔ p.Partner o w ∧ w.Precedes u := by
    intro w
    rw [hsplit, List.pairwise_append, List.pairwise_cons] at hord
    obtain ⟨_, ⟨hafter, _⟩, hcross⟩ := hord
    constructor
    · intro hw
      exact ⟨(hus w).mp (hsplit ▸ List.mem_append_left _ hw), hcross w hw u List.mem_cons_self⟩
    · rintro ⟨hpartner, hwu⟩
      have hw := (hus w).mpr hpartner
      rw [hsplit] at hw
      rcases List.mem_append.mp hw with hw | hw
      · exact hw
      · rcases List.mem_cons.mp hw with rfl | hw
        · exact absurd hwu hwu.asymm
        · exact absurd hwu (hafter w hw).asymm
  simp only [List.mem_append, List.mem_flatMap, hbefore, Known, and_assoc]

/-- The search that a plan makes for a partner. -/
structure Plans (p : Program) (o u : Occurrence) (s : Search) : Prop where
  active_eq : s.active = o.id
  partner_eq : s.partner = u.id
  target_eq : s.target = u.constraint
  chosen : ∃ k, p.constraint? u.constraint = some k ∧ k.Chooses (p.BoundAt o u) s.path

theorem WellFormed.searches?_plans (h : p.WellFormed) {r : Rule} (link : Option HeadLink)
    {o : Occurrence} (hr : p.rule? o.rule = some r) {us : List Occurrence}
    (hus : ∀ u, u ∈ us ↔ p.Partner o u) (hord : us.Pairwise Occurrence.Precedes)
    {before after : List Occurrence} (hsplit : us = before ++ after) :
    ∃ plan, p.searches? r link o (o.args ++ before.flatMap Occurrence.args) after = some plan ∧
      List.Forall₂ (p.Plans o) after plan := by
  -- `before` has been planned, and its arguments are what the recursion has gathered
  induction after generalizing before with
  | nil => exact ⟨[], rfl, .nil⟩
  | cons u after ih =>
    have hpartner : p.Partner o u :=
      (hus u).mp (hsplit ▸ List.mem_append_right _ List.mem_cons_self)
    have hru : p.rule? u.rule = some r := hpartner.rule_eq ▸ hr
    obtain ⟨guard, hguard⟩ := h.guardOf?_eq_some hpartner.mem hru
    obtain ⟨k, hk, _⟩ := h.declared u hpartner.mem
    have hnext : us = (before ++ [u]) ++ after := by
      rw [hsplit, List.append_assoc]
      rfl
    obtain ⟨plan, hplan, hall⟩ := ih hnext
    rw [List.flatMap_append, List.flatMap_singleton, ← List.append_assoc] at hplan
    refine ⟨_,
      by simp only [searches?, hguard, hk, hplan, Option.bind_eq_bind, Option.bind_some]; rfl, ?_⟩
    refine .cons ⟨rfl, rfl, rfl, k, hk,
      k.accessPath_chooses (Search.knownPositions_pairwise _ _ _) fun i => ?_⟩ hall
    rw [Search.mem_knownPositions, BoundAt]
    simp only [Search.tied_iff, mem_bound_iff hus hord hsplit, mem_guardOf? hru hguard]

def planOf (p : Program) (arrayIndexing : Bool) (o : Occurrence) : List Search :=
  (p.occurrencePlan? arrayIndexing o).getD []

theorem WellFormed.occurrencePlan?_plans (h : p.WellFormed) (arrayIndexing : Bool) {o : Occurrence}
    (ho : o ∈ p.occurrences) : p.occurrencePlan? arrayIndexing o = some (p.planOf arrayIndexing o) ∧
      ∃ us, (∀ u, u ∈ us ↔ p.Partner o u) ∧ us.Pairwise Occurrence.Precedes ∧
        List.Forall₂ (p.Plans o) us (p.planOf arrayIndexing o) := by
  obtain ⟨r, hr, hrule, _⟩ := h.rule_mem ho
  obtain ⟨head, hhead, _⟩ := h.head_eq hr
  obtain ⟨ids, us, hids, hresolve, hus, hord⟩ := h.partners_ordered ho
  have hplan : ∃ plan, p.occurrencePlan? arrayIndexing o = some plan ∧
      List.Forall₂ (p.Plans o) us plan := by
    simp only [occurrencePlan?, hrule, hhead, hids, hresolve, Option.bind_eq_bind, Option.bind_some]
    have hall := h.searches?_plans (if arrayIndexing && decide (head.length = 2) then
      Search.soleLink? (head.map Occurrence.args) r.guard else none) hrule hus hord
      (List.nil_append us).symm
    simpa using hall
  obtain ⟨plan, hplan, hall⟩ := hplan
  rw [planOf, hplan]
  exact ⟨rfl, us, hus, hord, hall⟩

theorem exists_mem_of_forall₂ {α β : Type} {R : α → β → Prop} {xs : List α} {ys : List β}
    (h : List.Forall₂ R xs ys) {y : β} (hy : y ∈ ys) : ∃ x ∈ xs, R x y := by
  obtain ⟨hlen, hget⟩ := List.forall₂_iff_get.mp h
  obtain ⟨i, hi, rfl⟩ := List.getElem_of_mem hy
  have hi' : i < xs.length := hlen ▸ hi
  exact ⟨xs[i], List.getElem_mem hi', hget i hi' hi⟩

theorem WellFormed.plans_of_mem (h : p.WellFormed) {arrayIndexing : Bool} {o : Occurrence}
    (ho : o ∈ p.occurrences) {s : Search} (hs : s ∈ p.planOf arrayIndexing o) :
    ∃ u, p.Partner o u ∧ p.Plans o u s := by
  obtain ⟨_, us, hus, _, hall⟩ := h.occurrencePlan?_plans arrayIndexing ho
  obtain ⟨u, hu, hplans⟩ := exists_mem_of_forall₂ hall hs
  exact ⟨u, (hus u).mp hu, hplans⟩

theorem WellFormed.searchPlan?_eq (h : p.WellFormed) (arrayIndexing : Bool) :
    p.searchPlan? arrayIndexing = some (p.active.flatMap (p.planOf arrayIndexing)) := by
  have hplans : p.active.mapM (p.occurrencePlan? arrayIndexing) =
      some (p.active.map (p.planOf arrayIndexing)) := by
    rw [mapM_eq_some_iff, List.map_map]
    apply List.map_congr_left
    intro o ho
    exact (h.occurrencePlan?_plans arrayIndexing (List.mem_of_mem_filter ho)).1
  rw [searchPlan?, hplans, Option.map_some, List.flatMap_def]

end Program

end ConstraintRules
