import ConstraintRules.Proofs.Schedules

/-! Calls that dangle after bodies were changed. Every pass that loads calls stops
at the first one, before it writes. -/

namespace ConstraintRules

open Activation

inductive BodyEdit where
  | replace (r : RuleId) (body : List Goal)
  | extend (r : RuleId) (goals : List Goal)

def BodyEdit.apply (p : Program) : BodyEdit → Program
  | replace r body => p.modifyRule r fun rule => { rule with body }
  | extend r goals => p.modifyRule r fun rule => { rule with body := rule.body ++ goals }

/-- The pass loads what bodies call. -/
def Pass.loadsCalls : Pass → Bool
  | prepare (.lookups _) | prepare .joins => false
  | prepare .storage | prepare .removees | prepare .recursion | history _ => true

namespace Program

variable {p q : Program} {d : DanglingCall} {x : Pass}

section First

/-- A call of a constraint that the program does not have. -/
def Dangles (p : Program) (g : Goal) : Prop := ∃ c args, g = .call c args ∧ p.constraint? c = none

def HasDanglingCall (p : Program) : Prop := ∃ r ∈ p.rules, ∃ g ∈ r.body, p.Dangles g

/-- The first call that dangles, in the order of the rules' numbers and then
of the goals in the body. -/
def FirstDangling (p : Program) (d : DanglingCall) : Prop :=
  ∃ r ∈ p.rules, d.rule = r.name ∧ p.constraint? d.constraint = none ∧
    (∀ r' ∈ p.rules, r'.id.index < r.id.index → ∀ g ∈ r'.body, ¬p.Dangles g) ∧
    ∃ before args after, r.body = before ++ .call d.constraint args :: after ∧
      ∀ g ∈ before, ¬p.Dangles g

def danglingGoal? (p : Program) (rule : String) : Goal → Option DanglingCall
  | .call c _ => if (p.constraint? c).isSome then none else some ⟨rule, c⟩
  | _ => none

theorem danglingCall?_eq (p : Program) :
    p.danglingCall? = p.rules.findSome? fun r => r.body.findSome? (p.danglingGoal? r.name) := rfl

theorem danglingGoal?_eq_none {rule : String} {g : Goal} :
    p.danglingGoal? rule g = none ↔ ¬p.Dangles g := by
  cases g with
  | call c args => cases hc : p.constraint? c <;> simp [danglingGoal?, Dangles, hc]
  | builtIn _ | triggering | pessimistic | free => simp [danglingGoal?, Dangles]

theorem danglingGoal?_eq_some {rule : String} {g : Goal} : p.danglingGoal? rule g = some d ↔
    d.rule = rule ∧ p.constraint? d.constraint = none ∧ ∃ args, g = .call d.constraint args := by
  cases g with
  | call c args =>
    rw [danglingGoal?]
    constructor
    · intro hsome
      cases hc : p.constraint? c with
      | none =>
        rw [hc] at hsome
        cases hsome
        exact ⟨rfl, hc, args, rfl⟩
      | some k =>
        rw [hc] at hsome
        cases hsome
    · rintro ⟨rfl, hnone, _, hcall⟩
      cases hcall
      rw [hnone]
      rfl
  | builtIn _ | triggering | pessimistic | free => simp [danglingGoal?]

theorem findSome?_body_eq_none {rule : String} {body : List Goal} :
    body.findSome? (p.danglingGoal? rule) = none ↔ ∀ g ∈ body, ¬p.Dangles g := by
  simp only [List.findSome?_eq_none_iff, danglingGoal?_eq_none]

theorem danglingCall?_eq_none_iff : p.danglingCall? = none ↔ ¬p.HasDanglingCall := by
  simp only [danglingCall?_eq, List.findSome?_eq_none_iff, danglingGoal?_eq_none, HasDanglingCall,
    not_exists, not_and]

theorem Arranged.rules_pairwise (h : p.Arranged) :
    p.rules.Pairwise fun r r' => r.id.index < r'.id.index := by
  rw [List.pairwise_iff_getElem]
  intro i j hi hj hij
  rw [h.rule_id i _ (List.getElem?_eq_getElem hi), h.rule_id j _ (List.getElem?_eq_getElem hj)]
  exact hij

theorem findSome?_body_eq_some {rule : String} {body : List Goal} :
    body.findSome? (p.danglingGoal? rule) = some d ↔
      d.rule = rule ∧ p.constraint? d.constraint = none ∧
      ∃ before args after, body = before ++ .call d.constraint args :: after ∧
        ∀ g ∈ before, ¬p.Dangles g := by
  simp only [List.findSome?_eq_some_iff, danglingGoal?_eq_some, danglingGoal?_eq_none]
  constructor
  · rintro ⟨before, _, after, hbody, ⟨hrule, hnone, args, rfl⟩, hbefore⟩
    exact ⟨hrule, hnone, before, args, after, hbody, hbefore⟩
  · rintro ⟨hrule, hnone, before, args, after, hbody, hbefore⟩
    exact ⟨before, _, after, hbody, ⟨hrule, hnone, args, rfl⟩, hbefore⟩

theorem Arranged.danglingCall?_eq_some_iff (h : p.Arranged) :
    p.danglingCall? = some d ↔ p.FirstDangling d := by
  have hord := h.rules_pairwise
  rw [danglingCall?_eq, List.findSome?_eq_some_iff]
  constructor
  · rintro ⟨before, r, after, hrules, hr, hbefore⟩
    obtain ⟨hname, hnone, hfirst⟩ := findSome?_body_eq_some.mp hr
    refine ⟨r, hrules ▸ List.mem_append_right _ List.mem_cons_self, hname, hnone,
      fun r' hr' hlt => ?_, hfirst⟩
    rw [hrules, List.pairwise_append, List.pairwise_cons] at hord
    rw [hrules, List.mem_append, List.mem_cons] at hr'
    rcases hr' with hr' | rfl | hr'
    · exact findSome?_body_eq_none.mp (hbefore r' hr')
    · exact absurd hlt (Nat.lt_irrefl _)
    · exact absurd hlt (Nat.lt_asymm (hord.2.1.1 r' hr'))
  · rintro ⟨r, hr, hname, hnone, hearlier, hfirst⟩
    obtain ⟨before, after, hrules⟩ := List.append_of_mem hr
    refine ⟨before, r, after, hrules, findSome?_body_eq_some.mpr ⟨hname, hnone, hfirst⟩,
      fun r' hr' => ?_⟩
    rw [hrules, List.pairwise_append] at hord
    exact findSome?_body_eq_none.mpr
      (hearlier r' (hrules ▸ List.mem_append_left _ hr') (hord.2.2 r' hr' r List.mem_cons_self))

theorem Arranged.hasDanglingCall_iff (h : p.Arranged) :
    p.HasDanglingCall ↔ ∃ d, p.FirstDangling d := by
  simp only [← h.danglingCall?_eq_some_iff, ← Option.ne_none_iff_exists', ne_eq,
    danglingCall?_eq_none_iff, not_not]

end First

section Passes

theorem noteCalls_of_dangling {α : Type} (hd : p.danglingCall? = some d)
    {further : Option (List Fact)}
    {note : Session → Constraint → Constraint} {stats : Session → α} :
    p.noteCalls further note stats = .failed (.danglingCall d) p := by
  rw [noteCalls, callSession?_of_dangling hd]
  rfl

theorem noteCalls_of_none {α : Type} (hd : p.danglingCall? = none) {further : Option (List Fact)}
    {facts : List Fact} (hfacts : further = some facts) (note : Session → Constraint → Constraint)
    (stats : Session → α) : ∃ a q, p.noteCalls further note stats = .done a q := by
  rw [noteCalls, hfacts, callSession?_of_none hd]
  exact ⟨_, _, rfl⟩

variable (h : p.Arranged)

include h

/-- A pass that loads calls fails with the first that dangles, before it has written anything. -/
theorem Arranged.run_of_dangling (hx : x.loadsCalls = true) (hd : p.danglingCall? = some d) :
    x.run p = .failed (.danglingCall d) p := by
  have hobservation := observationSession?_of_dangling h hd
  cases x with
  | history elision =>
    rw [Pass.run, elideHistory, hobservation]
    rfl
  | prepare y =>
    cases y with
    | lookups _ | joins => cases hx
    | storage =>
      rw [Pass.run, Preparation.run, delayStorage, hobservation]
      rfl
    | removees =>
      rw [Pass.run, Preparation.run, findRemovees, noteCalls_of_dangling hd]
      rfl
    | recursion =>
      rw [Pass.run, Preparation.run, clearRecursion, noteCalls_of_dangling hd]
      rfl

theorem Arranged.run_of_none (hx : x.loadsCalls = true) (hd : p.danglingCall? = none) :
    ∃ q, x.run p = .done () q := by
  obtain ⟨s, hs⟩ := observationSession?_of_none h hd
  cases x with
  | history elision =>
    obtain ⟨_, _, _, _, hdone⟩ := h.elideHistory_eq hs elision
    exact ⟨_, by rw [Pass.run, hdone]; rfl⟩
  | prepare y =>
    cases y with
    | lookups _ | joins => cases hx
    | storage => exact ⟨_, by rw [Pass.run, Preparation.run, delayStorage, hs]; rfl⟩
    | removees =>
      obtain ⟨facts, hfacts, _⟩ := removalFacts?_eq_some h
      obtain ⟨_, _, hdone⟩ := noteCalls_of_none hd hfacts p.listRemovees p.removalStats
      exact ⟨_, by rw [Pass.run, Preparation.run, findRemovees, hdone]; rfl⟩
    | recursion =>
      obtain ⟨facts, hfacts, _⟩ := stackFacts?_eq_some h
      obtain ⟨_, _, hdone⟩ := noteCalls_of_none hd hfacts Session.clearMark p.recursionStats
      exact ⟨_, by rw [Pass.run, Preparation.run, clearRecursion, hdone]; rfl⟩

theorem Arranged.run_of_not_loadsCalls (hu : p.Unfrozen) (hx : x.loadsCalls = false) :
    ∃ q, x.run p = .done () q ∧ q.Arranged ∧ q.Unfrozen ∧ q.danglingCall? = p.danglingCall? := by
  have hspec : ∃ q, x.run p = .done () q ∧ q.Unfrozen ∧ q.bare = p.bare := by
    cases x with
    | history elision => cases hx
    | prepare y =>
      cases y with
      | storage | removees | recursion => cases hx
      | lookups arrayIndexing =>
        obtain ⟨q, hq, ⟨_, hdone⟩ | ⟨_, hfrozen⟩⟩ := assignLookups_cases h arrayIndexing
        · exact ⟨q, by rw [Pass.run, Preparation.run, hdone]; rfl, hq.unfrozen hu,
            hq.reindexed.bare_eq⟩
        · exact absurd hu hfrozen
      | joins =>
        obtain ⟨rules, _, _, hdone⟩ := planJoins_eq h
        obtain ⟨q, hrun, hq⟩ := planJoins_annotated h
        rw [hdone] at hrun
        cases hrun
        exact ⟨{ p with rules }, by rw [Pass.run, Preparation.run, hdone]; rfl, hu, hq.bare_eq⟩
  obtain ⟨q, hdone, hqu, hbare⟩ := hspec
  exact ⟨q, hdone, h.of_sameShape (.of_bare_eq hbare), hqu,
    by rw [← danglingCall?_bare, hbare, danglingCall?_bare]⟩

theorem Arranged.runAll_of_not_loadsCalls (hu : p.Unfrozen) {xs : List Pass}
    (hxs : ∀ x ∈ xs, x.loadsCalls = false) :
    ∃ q, p.runAll xs = .done () q ∧ q.Arranged ∧ q.danglingCall? = p.danglingCall? := by
  induction xs generalizing p with
  | nil => exact ⟨p, rfl, h, rfl⟩
  | cons x xs ih =>
    obtain ⟨q, hdone, hq, hqu, hcall⟩ := h.run_of_not_loadsCalls hu (hxs x List.mem_cons_self)
    obtain ⟨t, hrest, ht, hcall'⟩ := ih hq hqu fun y hy => hxs y (List.mem_cons_of_mem _ hy)
    refine ⟨t, ?_, ht, hcall'.trans hcall⟩
    rw [runAll, hdone]
    exact hrest

end Passes

end Program

namespace Settings

variable {s : Settings} {x : Pass}

def withoutCalls (s : Settings) : Settings :=
  { s with storage := false, removees := false, recursion := false, history := false }

def WantsCalls (s : Settings) : Prop :=
  s.storage = true ∨ s.removees = true ∨ s.recursion = true ∨ s.history = true

def callPasses (s : Settings) : List Pass :=
  (if s.storage then [.prepare .storage] else []) ++
    ((if s.removees then [.prepare .removees] else []) ++
      ((if s.recursion then [.prepare .recursion] else []) ++
        if s.history then [.history s.duplicateElision] else []))

theorem passes_withoutCalls (s : Settings) : s.withoutCalls.passes =
    (if s.indexing then [.prepare (.lookups s.arrayIndexing)] else []) ++
      if s.joins then [.prepare .joins] else [] := by
  cases hi : s.indexing <;> cases hj : s.joins <;> simp [passes, preparations, withoutCalls, hi, hj]

/-- The passes that load calls come last in the pipeline. -/
theorem passes_eq (s : Settings) : s.passes = s.withoutCalls.passes ++ s.callPasses := by
  rw [passes_withoutCalls]
  simp [passes, preparations, callPasses, apply_ite (List.map Pass.prepare)]

theorem loadsCalls_of_mem_callPasses (hx : x ∈ s.callPasses) : x.loadsCalls = true := by
  simp only [callPasses, List.mem_append, List.mem_ite_nil_right, List.mem_singleton] at hx
  rcases hx with ⟨_, rfl⟩ | ⟨_, rfl⟩ | ⟨_, rfl⟩ | ⟨_, rfl⟩ <;> rfl

theorem loadsCalls_of_mem_withoutCalls (hx : x ∈ s.withoutCalls.passes) : x.loadsCalls = false := by
  simp only [passes_withoutCalls, List.mem_append, List.mem_ite_nil_right, List.mem_singleton] at hx
  rcases hx with ⟨_, rfl⟩ | ⟨_, rfl⟩ <;> rfl

theorem WantsCalls.callPasses_ne_nil (h : s.WantsCalls) : s.callPasses ≠ [] := by
  rcases h with h | h | h | h <;> simp [callPasses, h]

end Settings

namespace Program

variable {p q : Program} {d : DanglingCall}

theorem optimize_of_runAll {settings : Settings} {e : PassError}
    (h : p.runAll settings.passes = .failed e q) :
    p.optimize settings = .failed e q := by
  have hrun := Job.run_eq p (.pipeline settings)
  rw [Job.passes, h, Job.run] at hrun
  cases ho : p.optimize settings with
  | done _ _ => rw [ho] at hrun; cases hrun
  | dangling => rw [ho] at hrun; cases hrun
  | failed _ _ =>
    rw [ho] at hrun
    cases hrun
    rfl

/-- The pipeline fails in the first pass that loads calls, after those before it have been done. -/
theorem Arranged.optimize_of_dangling (h : p.Arranged) (hu : p.Unfrozen) {settings : Settings}
    (hwants : settings.WantsCalls) (hd : p.danglingCall? = some d) :
    ∃ report q, p.optimize settings.withoutCalls = .done report q ∧
      p.optimize settings = .failed (.danglingCall d) q := by
  have hearly : ∀ x ∈ settings.withoutCalls.passes, x.loadsCalls = false := fun _ =>
    Settings.loadsCalls_of_mem_withoutCalls
  obtain ⟨q, hdone, hq, hcall⟩ := h.runAll_of_not_loadsCalls hu hearly
  have hrun := Job.run_eq p (.pipeline settings.withoutCalls)
  rw [Job.passes, hdone, Job.run] at hrun
  obtain ⟨report, q', hoptimize, he⟩ := Outcome.andThen_eq_done hrun
  cases he
  refine ⟨report, q, hoptimize, optimize_of_runAll ?_⟩
  obtain ⟨x, rest, hpasses⟩ := List.exists_cons_of_ne_nil hwants.callPasses_ne_nil
  have hx : x.loadsCalls = true :=
    Settings.loadsCalls_of_mem_callPasses (hpasses ▸ List.mem_cons_self)
  rw [settings.passes_eq, runAll_append, hdone, hpasses]
  simp only [Outcome.andThen, runAll, hq.run_of_dangling hx (hcall.trans hd)]

theorem Arranged.foldl_apply (h : p.Arranged) (hu : p.Unfrozen) (edits : List BodyEdit) :
    (edits.foldl BodyEdit.apply p).Arranged ∧ (edits.foldl BodyEdit.apply p).Unfrozen := by
  induction edits generalizing p with
  | nil => exact ⟨h, hu⟩
  | cons e edits ih =>
    refine ih (h.of_sameShape ?_) ?_
    · cases e with
      | replace r body => exact modifyRule_sameShape r fun _ => rfl
      | extend r goals => exact modifyRule_sameShape r fun _ => rfl
    · cases e <;> exact hu

/-- Whatever the bodies have been changed to, just the passes that load calls fail on a dangling
call, with the first one and before they have written anything. -/
theorem dangling_call_aborts (steps : List BuildStep) (edits : List BodyEdit) :
    let p := edits.foldl BodyEdit.apply (build steps)
    (p.HasDanglingCall ↔ ∃ d, p.FirstDangling d) ∧
    (∀ x : Pass, x.loadsCalls = true →
      ((∃ e q, x.run p = .failed e q) ↔ p.HasDanglingCall) ∧
      (¬p.HasDanglingCall → ∃ q, x.run p = .done () q) ∧
      ∀ d, p.FirstDangling d → x.run p = .failed (.danglingCall d) p) ∧
    ∀ settings : Settings, settings.WantsCalls → ∀ d, p.FirstDangling d →
      ∃ report q, p.optimize settings.withoutCalls = .done report q ∧
        p.optimize settings = .failed (.danglingCall d) q := by
  intro p
  obtain ⟨h, hu⟩ : p.Arranged ∧ p.Unfrozen :=
    (build_wellFormed steps).toArranged.foldl_apply (build_ready steps).unfrozen edits
  refine ⟨h.hasDanglingCall_iff, fun x hx => ⟨⟨?_, ?_⟩, ?_, ?_⟩, fun settings hwants d hd => ?_⟩
  · rintro ⟨e, q, hfailed⟩
    by_contra hno
    obtain ⟨q', hdone⟩ := h.run_of_none hx (danglingCall?_eq_none_iff.mpr hno)
    rw [hdone] at hfailed
    cases hfailed
  · intro hcall
    obtain ⟨d, hd⟩ := h.hasDanglingCall_iff.mp hcall
    exact ⟨_, _, h.run_of_dangling hx (h.danglingCall?_eq_some_iff.mpr hd)⟩
  · exact fun hno => h.run_of_none hx (danglingCall?_eq_none_iff.mpr hno)
  · exact fun d hd => h.run_of_dangling hx (h.danglingCall?_eq_some_iff.mpr hd)
  · exact h.optimize_of_dangling hu hwants (h.danglingCall?_eq_some_iff.mpr hd)

end Program

end ConstraintRules
