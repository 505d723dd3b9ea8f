import ConstraintRules.Proofs.Annotations
import ConstraintRules.Proofs.JoinOrder
import ConstraintRules.Proofs.SessionRuns

/-! Schedules of passes on a built program. Their only failure is that of indexing
in a category that history has frozen. -/

namespace ConstraintRules

open Activation

theorem Pass.eq_lookups_of_part {x : Pass} (h : x.part = .lookups) :
    ∃ arrayIndexing, x = .prepare (.lookups arrayIndexing) := by
  cases x with
  | history _ => cases h
  | prepare y =>
    cases y with
    | lookups arrayIndexing => exact ⟨arrayIndexing, rfl⟩
    | joins | storage | removees | recursion => cases h

/-- History has run after indexing, so categories may have been read. -/
def Pass.MayHaveRead (ran : List Pass) : Prop :=
  ∃ arrayIndexing elision, [Pass.prepare (.lookups arrayIndexing), .history elision].Sublist ran

theorem Pass.MayHaveRead.append_right {ran : List Pass} (h : Pass.MayHaveRead ran)
    (more : List Pass) :
    Pass.MayHaveRead (ran ++ more) := by
  obtain ⟨arrayIndexing, elision, hsublist⟩ := h
  exact ⟨arrayIndexing, elision, hsublist.trans (List.sublist_append_left ran more)⟩

/-- A pass by itself or the pipeline. -/
inductive Job where
  | pass (x : Pass)
  | pipeline (settings : Settings)

/-- The wanted passes, in the order of the pipeline. -/
def Settings.passes (s : Settings) : List Pass :=
  s.preparations.map .prepare ++ if s.history then [.history s.duplicateElision] else []

namespace Job

def passes : Job → List Pass
  | pass x => [x]
  | pipeline settings => settings.passes

def run (p : Program) : Job → Outcome Unit
  | pass x => x.run p
  | pipeline settings => (p.optimize settings).andThen fun _ q => .done () q

end Job

/-- The passes that were done so far, and the program as it is now. -/
structure Progress where
  ran : List Pass
  program : Program

/-- A job that fails has done nothing but what it has left in the program. -/
def Progress.next (t : Progress) (job : Job) : Progress :=
  match job.run t.program with
  | .done _ q => ⟨t.ran ++ job.passes, q⟩
  | .failed _ q => ⟨t.ran, q⟩
  | .dangling => t

section Categories

variable {cs ds : Categories}

theorem Categories.FreezesTo.paths_eq (h : cs.FreezesTo ds) : ds.paths = cs.paths := by
  obtain ⟨list, rfl, hlist⟩ := h
  refine map_eq_of_forall₂ hlist fun c d hcd => ?_
  obtain ⟨_, rfl, _⟩ := hcd
  rfl

theorem Categories.FreezesTo.seated (h : cs.FreezesTo ds) (hs : cs.Seated) : ds.Seated := by
  have hmaster : ds.masterId = cs.masterId := by
    obtain ⟨_, rfl, _⟩ := h
    rfl
  exact hs.of_isPrefix hmaster (h.paths_eq ▸ List.prefix_rfl)

end Categories

theorem Preparation.perform_forget (x : Preparation) (r : Report) (p : Program) :
    ((x.perform r p).andThen fun _ q => .done () q) = x.run p := by
  cases x with
  | lookups _ | joins | storage | removees | recursion =>
    rw [perform, run, Outcome.andThen_assoc]
    rfl

namespace Program

variable {p q : Program} {x : Part} {ran : List Pass}

namespace AnnotatedBy

theorem categories (h : p.AnnotatedBy x q) (hx : x ≠ .lookups) :
    List.Forall₂ (fun k k' : Constraint =>
    k'.categories = k.categories ∨ x = .history ∧
      k.categories.FreezesTo k'.categories) p.constraints q.constraints := by
  refine h.constraints.imp fun k k' hk => ?_
  cases x with
  | lookups => exact absurd rfl hx
  | removees => obtain ⟨_, rfl⟩ := hk; exact Or.inl rfl
  | recursion => obtain ⟨_, rfl, _⟩ := hk; exact Or.inl rfl
  | history => obtain ⟨_, rfl, hfreezes⟩ := hk; exact Or.inr ⟨rfl, hfreezes⟩
  | joins | storage => exact Or.inl (congrArg _ hk)

theorem forall_categories (h : p.AnnotatedBy x q) (hx : x ≠ .lookups) {P : Categories → Prop}
    (hP : x = .history → ∀ cs ds : Categories, cs.FreezesTo ds → P cs → P ds)
    (hall : ∀ k ∈ p.constraints, P k.categories) : ∀ k ∈ q.constraints, P k.categories := by
  intro k hk
  obtain ⟨k₀, hk₀, hsame | ⟨hhistory, hfreezes⟩⟩ := exists_mem_of_forall₂ (h.categories hx) hk
  · exact hsame ▸ hall k₀ hk₀
  · exact hP hhistory _ _ hfreezes (hall k₀ hk₀)

theorem list_eq_nil (h : p.AnnotatedBy x q) (hx : x ≠ .lookups)
    (hnil : ∀ k ∈ p.constraints, k.categories.list = []) :
    ∀ k ∈ q.constraints, k.categories.list = [] := by
  refine h.forall_categories (P := fun cs => cs.list = []) hx (fun _ cs ds hfreezes hcs => ?_) hnil
  have hpaths : ds.paths = [] := by rw [hfreezes.paths_eq, Categories.paths, hcs, List.map_nil]
  exact List.map_eq_nil_iff.mp hpaths

theorem lookups_eq (h : p.AnnotatedBy x q) (hx : x ≠ .lookups) :
    q.occurrences.map Occurrence.lookups = p.occurrences.map Occurrence.lookups := by
  refine map_eq_of_forall₂ h.occurrences fun o o' ho => ?_
  cases x with
  | lookups => exact absurd rfl hx
  | storage | history => obtain ⟨_, rfl, _⟩ := ho; rfl
  | joins | removees | recursion => exact congrArg _ ho

theorem indexed (h : p.AnnotatedBy x q) (hx : x ≠ .lookups) (hi : p.Indexed) : q.Indexed := by
  have hpaths : q.constraints.map (fun k => k.categories.paths) =
      p.constraints.map fun k => k.categories.paths :=
    map_eq_of_forall₂ (h.categories hx) fun k k' hk => by
      rcases hk with hsame | ⟨_, hfreezes⟩
      · rw [hsame]
      · exact hfreezes.paths_eq
  intro o ho l hl
  obtain ⟨i, ho⟩ := List.mem_iff_getElem?.mp ho
  obtain ⟨o', ho', he⟩ := getElem?_of_map_eq (h.lookups_eq hx) ho
  obtain ⟨u, k, hu, hk, hpath⟩ := hi o' (List.mem_of_getElem? ho') l (he ▸ hl)
  obtain ⟨u', _, _, _, hu', rfl⟩ := occurrence?_of_bare_eq h.bare_eq.symm hu
  obtain ⟨k', hk', hek⟩ := getElem?_of_map_eq hpaths.symm hk
  exact ⟨u', k', hu', hk', by rw [hek]; exact hpath⟩

end AnnotatedBy

/-- What holds after the passes `ran`: nothing dangles, categories come from indexing, and they
are frozen by history after it. -/
structure Sound (ran : List Pass) (p : Program) : Prop where
  wellFormed : p.WellFormed
  indexed : p.Indexed
  seated : p.Seated
  fresh : (∀ x ∈ ran, x.part ≠ .lookups) → ∀ k ∈ p.constraints, k.categories.list = []
  unfrozen : ¬Pass.MayHaveRead ran → p.Unfrozen

theorem build_sound (steps : List BuildStep) : (build steps).Sound [] := by
  have hready := build_ready steps
  have hempty : ∀ k ∈ (build steps).constraints, k.categories = .empty := fun k hk => by
    rw [← (build_unannotated steps).constraints k hk]
    rfl
  refine ⟨hready.wellFormed, hready.indexed, fun k hk id hid => ?_, fun _ k hk => ?_,
    fun _ => hready.unfrozen⟩
  · rw [hempty k hk] at hid
    cases hid
  · rw [hempty k hk]
    rfl

/-- On a well-formed program a pass is done, unless it is indexing and meets a frozen category. -/
theorem WellFormed.run_cases (h : p.WellFormed) (x : Pass) : (∃ q, x.run p = .done () q) ∨
    ∃ arrayIndexing path q, x = .prepare (.lookups arrayIndexing) ∧
      p.assignLookups arrayIndexing = .failed (.lookup (.frozen path)) q ∧ ¬p.Unfrozen := by
  cases x with
  | history elision =>
    obtain ⟨_, q, hdone, _⟩ := elideHistory_remarked h elision
    exact Or.inl ⟨q, by rw [Pass.run, hdone, Outcome.andThen]⟩
  | prepare x =>
    cases x with
    | lookups arrayIndexing =>
      obtain ⟨q, _, ⟨_, hdone⟩ | ⟨⟨path, hfailed⟩, hfrozen⟩⟩ :=
        assignLookups_cases h.toArranged arrayIndexing
      · exact Or.inl ⟨q, by rw [Pass.run, Preparation.run, hdone, Outcome.andThen]⟩
      · exact Or.inr ⟨arrayIndexing, path, q, rfl, hfailed, hfrozen⟩
    | joins =>
      obtain ⟨_, _, _, hdone⟩ := planJoins_eq h.toArranged
      exact Or.inl ⟨_, by rw [Pass.run, Preparation.run, hdone, Outcome.andThen]⟩
    | storage =>
      obtain ⟨_, _, _, hdone⟩ := delayStorage_eq h
      exact Or.inl ⟨_, by rw [Pass.run, Preparation.run, hdone, Outcome.andThen]⟩
    | removees =>
      obtain ⟨facts, hfacts, _⟩ := removalFacts?_eq_some h.toArranged
      obtain ⟨_, _, hdone⟩ := noteCalls_eq h hfacts p.listRemovees p.removalStats
      exact Or.inl ⟨_, by rw [Pass.run, Preparation.run, findRemovees, hdone, Outcome.andThen]⟩
    | recursion =>
      obtain ⟨facts, hfacts, _⟩ := stackFacts?_eq_some h.toArranged
      obtain ⟨_, _, hdone⟩ := noteCalls_eq h hfacts Session.clearMark p.recursionStats
      exact Or.inl ⟨_, by rw [Pass.run, Preparation.run, clearRecursion, hdone, Outcome.andThen]⟩

namespace Sound

/-- A pass other than indexing is done. History freezes nothing where there has been no indexing. -/
theorem run_of_ne_lookups (h : p.Sound ran) {x : Pass} (hx : x.part ≠ .lookups) :
    ∃ q, x.run p = .done () q ∧ q.Sound (ran ++ [x]) := by
  rcases h.wellFormed.run_cases x with ⟨q, hdone⟩ | ⟨_, _, _, rfl, _⟩
  · obtain ⟨q', hq', hannotated⟩ := h.wellFormed.toArranged.annotatedBy_run x
    rw [hdone] at hq'
    cases hq'
    have hfresh := fun hran => hannotated.list_eq_nil hx (h.fresh hran)
    refine ⟨q, hdone, h.wellFormed.of_bare_eq hannotated.bare_eq, hannotated.indexed hx h.indexed,
      hannotated.forall_categories hx (fun _ _ _ hfreezes => hfreezes.seated) h.seated,
      fun hran => hfresh fun y hy => hran y (List.mem_append_left _ hy), fun hnot => ?_⟩
    by_cases hran : ∀ y ∈ ran, y.part ≠ .lookups
    · -- without indexing there is no category to freeze
      intro k hk c hc
      rw [hfresh hran k hk] at hc
      cases hc
    · -- after indexing the pass is not history, so categories stay as they were
      push Not at hran
      obtain ⟨y, hy, hpart⟩ := hran
      obtain ⟨arrayIndexing, rfl⟩ := Pass.eq_lookups_of_part hpart
      refine hannotated.forall_categories hx (fun hhistory => ?_)
        (h.unfrozen fun hread => hnot (hread.append_right [x]))
      cases x with
      | history elision =>
        exact absurd ⟨arrayIndexing, elision, (List.singleton_sublist.mpr hy).append (.refl _)⟩ hnot
      | prepare z => exact absurd hhistory z.part_ne_history
  · exact absurd rfl hx

theorem run_lookups (h : p.Sound ran) (arrayIndexing : Bool) :
    (∃ q, (Pass.prepare (.lookups arrayIndexing)).run p = .done () q ∧
      q.Sound (ran ++ [.prepare (.lookups arrayIndexing)])) ∨
    ∃ path q, p.assignLookups arrayIndexing = .failed (.lookup (.frozen path)) q ∧
      Pass.MayHaveRead ran ∧
      q.Sound ran := by
  obtain ⟨q, hq, hcases⟩ := assignLookups_cases h.wellFormed.toArranged arrayIndexing
  have hwellFormed := h.wellFormed.of_bare_eq hq.reindexed.bare_eq
  rcases hcases with ⟨_, hdone⟩ | ⟨⟨path, hfailed⟩, hfrozen⟩
  · refine Or.inl ⟨q, by rw [Pass.run, Preparation.run, hdone, Outcome.andThen], hwellFormed,
      hq.indexed h.indexed, hq.seated h.seated, fun hran =>
      absurd rfl (hran _ (List.mem_append_right _ List.mem_cons_self)), fun hnot => ?_⟩
    exact hq.unfrozen (h.unfrozen fun hread => hnot (hread.append_right _))
  · have hread : Pass.MayHaveRead ran := by
      by_contra hnot
      exact hfrozen (h.unfrozen hnot)
    refine Or.inr ⟨path, q, hfailed, hread, hwellFormed, hq.indexed h.indexed, hq.seated h.seated,
      fun hran => ?_,
      fun hnot => absurd hread hnot⟩
    obtain ⟨_, _, hsublist⟩ := hread
    exact absurd rfl (hran _ (hsublist.subset List.mem_cons_self))

end Sound

/-- Runs passes one after the other, up to the first that fails. -/
def runAll (p : Program) : List Pass → Outcome Unit
  | [] => .done () p
  | x :: xs => (x.run p).andThen fun _ q => q.runAll xs

theorem runAll_append (p : Program) (xs ys : List Pass) :
    p.runAll (xs ++ ys) = (p.runAll xs).andThen fun _ q => q.runAll ys := by
  induction xs generalizing p with
  | nil => rfl
  | cons x xs ih =>
    rw [List.cons_append, runAll, runAll, Outcome.andThen_assoc]
    simp only [ih]

theorem performAll_forget (p : Program) (r : Report) (xs : List Preparation) :
    ((p.performAll r xs).andThen fun _ q => .done () q) = p.runAll (xs.map .prepare) := by
  induction xs generalizing p r with
  | nil => rfl
  | cons x xs ih =>
    rw [performAll, Outcome.andThen_assoc, List.map_cons, runAll, Pass.run, ← x.perform_forget r p,
      Outcome.andThen_assoc]
    exact congrArg (Outcome.andThen _) (funext fun r => funext fun q => ih q r)

end Program

theorem Job.run_eq (p : Program) (job : Job) : job.run p = p.runAll job.passes := by
  cases job with
  | pass x =>
    show x.run p = (x.run p).andThen fun _ q => .done () q
    cases x.run p <;> rfl
  | pipeline settings =>
    have hhistory : ∀ (r : Report) (q : Program),
        ((Outcome.optionally settings.history (Program.elideHistory settings.duplicateElision)
        q).andThen fun h q =>
          (Outcome.done { r with history := h } q).andThen fun _ q => .done () q) =
        q.runAll (if settings.history then [.history settings.duplicateElision] else []) := by
      intro r q
      cases settings.history with
      | false => rfl
      | true =>
        simp only [Outcome.optionally, if_true, Program.runAll, Pass.run]
        cases q.elideHistory settings.duplicateElision <;> rfl
    rw [run, Program.optimize_eq, Outcome.andThen_assoc, passes, Settings.passes,
      Program.runAll_append, ← Program.performAll_forget p {}, Outcome.andThen_assoc]
    refine congrArg (Outcome.andThen _) (funext fun r => funext fun q => ?_)
    rw [Outcome.andThen_assoc]
    exact hhistory r q

theorem Job.part_ne_lookups_of_mem_tail {job : Job} {x : Pass} (h : x ∈ job.passes.tail) :
    x.part ≠ .lookups := by
  cases job with
  | pass y => cases h
  | pipeline settings =>
    simp only [passes, Settings.passes, Settings.preparations, List.map_append, List.append_assoc,
      apply_ite (List.map Pass.prepare), List.map_cons, List.map_nil] at h
    have hlater : x ∈ (if settings.joins then [.prepare .joins] else []) ++
        ((if settings.storage then [.prepare .storage] else []) ++
          ((if settings.removees then [.prepare .removees] else []) ++
            ((if settings.recursion then [.prepare .recursion] else []) ++
              if settings.history then [Pass.history settings.duplicateElision] else []))) := by
      cases hi : settings.indexing with
      | false => rw [hi] at h; exact List.mem_of_mem_tail h
      | true => rw [hi] at h; exact h
    simp only [List.mem_append, List.mem_ite_nil_right, List.mem_singleton] at hlater
    rcases hlater with ⟨_, rfl⟩ | ⟨_, rfl⟩ | ⟨_, rfl⟩ | ⟨_, rfl⟩ | ⟨_, rfl⟩
      <;> exact Part.noConfusion

namespace Program

variable {p q : Program} {ran : List Pass}

theorem Sound.runAll (h : p.Sound ran) {xs : List Pass} (hxs : ∀ x ∈ xs, x.part ≠ .lookups) :
    ∃ q, p.runAll xs = .done () q ∧ q.Sound (ran ++ xs) := by
  induction xs generalizing p ran with
  | nil => exact ⟨p, rfl, by rwa [List.append_nil]⟩
  | cons x xs ih =>
    obtain ⟨q, hdone, hq⟩ := h.run_of_ne_lookups (hxs x List.mem_cons_self)
    obtain ⟨t, hrest, ht⟩ := ih hq fun y hy => hxs y (List.mem_cons_of_mem _ hy)
    refine ⟨t, ?_, by rwa [List.append_assoc] at ht⟩
    rw [Program.runAll, hdone]
    exact hrest

theorem Sound.run_job (h : p.Sound ran) (job : Job) :
    (∃ q, job.run p = .done () q ∧ q.Sound (ran ++ job.passes)) ∨
    ∃ arrayIndexing path q, job.passes.head? = some (.prepare (.lookups arrayIndexing)) ∧
      p.assignLookups arrayIndexing = .failed (.lookup (.frozen path)) q ∧
      job.run p = .failed (.lookup (.frozen path)) q ∧ Pass.MayHaveRead ran ∧ q.Sound ran := by
  have htail : ∀ x ∈ job.passes.tail, x.part ≠ .lookups := fun x => Job.part_ne_lookups_of_mem_tail
  rw [job.run_eq]
  generalize job.passes = xs at htail
  cases xs with
  | nil => exact Or.inl (h.runAll fun x hx => htail x hx)
  | cons x xs =>
    by_cases hx : x.part = .lookups
    · obtain ⟨arrayIndexing, rfl⟩ := Pass.eq_lookups_of_part hx
      rcases h.run_lookups arrayIndexing with ⟨q, hdone, hq⟩ | ⟨path, q, hfailed, hread, hq⟩
      · obtain ⟨t, hrest, ht⟩ := hq.runAll htail
        refine Or.inl ⟨t, ?_, by rwa [List.append_assoc] at ht⟩
        rw [Program.runAll, hdone]
        exact hrest
      · refine Or.inr ⟨arrayIndexing, path, q, rfl, hfailed, ?_, hread, hq⟩
        rw [Program.runAll, Pass.run, Preparation.run, hfailed]
        rfl
    · exact Or.inl (h.runAll fun y hy => by
        rcases List.mem_cons.mp hy with rfl | hy
        · exact hx
        · exact htail y hy)

end Program

/-- Every job takes the program on from where it is, and what holds of it goes on to hold. -/
theorem Progress.next_sound {t : Progress} (h : t.program.Sound t.ran) (job : Job) :
    (t.next job).program.Sound (t.next job).ran := by
  rcases h.run_job job with ⟨q, hdone, hq⟩ | ⟨_, _, q, _, _, hfailed, _, hq⟩
  · rw [next, hdone]
    exact hq
  · rw [next, hfailed]
    exact hq

theorem Progress.foldl_next_sound {t : Progress} (h : t.program.Sound t.ran) (jobs : List Job) :
    (jobs.foldl next t).program.Sound (jobs.foldl next t).ran := by
  induction jobs generalizing t with
  | nil => exact h
  | cons job jobs ih => exact ih (next_sound h job)

namespace Program

variable {p : Program} {s : Session}

/-- A session that some pass loads. -/
def Loads (p : Program) (s : Session) : Prop :=
  p.observationSession? = some (.ok s) ∨ p.callSession? p.removalFacts? = some (.ok s) ∨
    p.callSession? p.stackFacts? = some (.ok s)

theorem assumption_ofFacts (facts : List Fact) : (Session.ofFacts facts).facts.assumption = none :=
  (Session.ofFacts_reflects facts).assumption_eq

theorem assumption_of_callSession? {facts : Option (List Fact)}
    (h : p.callSession? facts = some (.ok s)) :
    s.facts.assumption = none := by
  rw [callSession?] at h
  cases hd : p.danglingCall? with
  | some d => rw [hd] at h; cases h
  | none =>
    rw [hd] at h
    obtain ⟨facts, _, he⟩ := Option.map_eq_some_iff.mp h
    cases he
    exact assumption_ofFacts _

theorem Loads.assumption_eq (h : p.Loads s) : s.facts.assumption = none := by
  rcases h with h | h | h
  · rw [observationSession?] at h
    obtain ⟨partners, _, h⟩ := Option.bind_eq_some_iff.mp h
    cases hd : p.danglingCall? with
    | some d => rw [hd] at h; cases h
    | none =>
      rw [hd] at h
      cases h
      exact assumption_ofFacts _
  · exact assumption_of_callSession? h
  · exact assumption_of_callSession? h

/-- Whichever passes and pipelines run on a built program, the only failure is that of indexing,
on a category frozen by history after an earlier indexing. -/
theorem schedule_fails_frozen_only (steps : List BuildStep) (jobs : List Job) :
    let t := jobs.foldl Progress.next ⟨[], build steps⟩
    t.program.WellFormed ∧ t.program.Indexed ∧ t.program.Seated ∧
      (∀ s, t.program.Loads s → s.NeverRefuses) ∧
      (∀ job : Job, (∃ q, job.run t.program = .done () q) ∨
        ∃ arrayIndexing path q, job.passes.head? = some (.prepare (.lookups arrayIndexing)) ∧
          t.program.assignLookups arrayIndexing = .failed (.lookup (.frozen path)) q ∧
          job.run t.program = .failed (.lookup (.frozen path)) q ∧ Pass.MayHaveRead t.ran) ∧
      ∀ settings, ∃ report q, (build steps).optimize settings = .done report q := by
  intro t
  have h : t.program.Sound t.ran :=
    Progress.foldl_next_sound (t := ⟨[], build steps⟩) (build_sound steps) jobs
  refine ⟨h.wellFormed, h.indexed, h.seated, fun s hs => Session.neverRefuses hs.assumption_eq,
    fun job => ?_,
    fun settings => ?_⟩
  · rcases h.run_job job
      with ⟨q, hdone, _⟩ | ⟨arrayIndexing, path, q, hhead, hassign, hfailed, hread, _⟩
    · exact Or.inl ⟨q, hdone⟩
    · exact Or.inr ⟨arrayIndexing, path, q, hhead, hassign, hfailed, hread⟩
  · rcases (build_sound steps).run_job (.pipeline settings)
      with ⟨q, hdone, _⟩ | ⟨_, _, _, _, _, _, hread, _⟩
    · obtain ⟨report, q', hrun, _⟩ := Outcome.andThen_eq_done hdone
      exact ⟨report, q', hrun⟩
    · obtain ⟨_, _, hsublist⟩ := hread
      cases hsublist

end Program

end ConstraintRules
