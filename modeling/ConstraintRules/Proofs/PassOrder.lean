import ConstraintRules.Proofs.Parts
import ConstraintRules.Proofs.HistoryExact

/-! The passes before history can run in any order, since each reads and writes
its own part alone. -/

namespace ConstraintRules

open Activation

/-- The statistics of the pass that writes a part. -/
def Report.keep (x : Part) (r : Report) : Report :=
  match x with
  | .lookups => { indexing := r.indexing }
  | .joins => { joins := r.joins }
  | .storage => { storage := r.storage }
  | .removees => { removees := r.removees }
  | .recursion => { recursion := r.recursion }
  | .history => { history := r.history }

theorem Report.eq_of_keep_eq {r r' : Report} (h : ∀ x, r.keep x = r'.keep x) : r = r' := by
  have hl := congrArg Report.indexing (h .lookups)
  have hj := congrArg Report.joins (h .joins)
  have hs := congrArg Report.storage (h .storage)
  have hr := congrArg Report.removees (h .removees)
  have hc := congrArg Report.recursion (h .recursion)
  have hh := congrArg Report.history (h .history)
  cases r
  cases r'
  cases hl
  cases hj
  cases hs
  cases hr
  cases hc
  cases hh
  rfl

namespace Outcome

variable {α β γ : Type}

/-- What an outcome says about one part. -/
def view (x : Part) : Outcome Report → Outcome Report
  | done r p => done (r.keep x) (p.only x)
  | failed e p => failed e (p.only x)
  | dangling => dangling

theorem eq_of_view_eq {r r' : Report} {p p' : Program}
    (h : ∀ x, (done r p).view x = (done r' p').view x) :
    r = r' ∧ p = p' := by
  have hboth : ∀ x, r.keep x = r'.keep x ∧ p.only x = p'.only x := fun x => done.inj (h x)
  exact ⟨Report.eq_of_keep_eq fun x => (hboth x).1, Program.eq_of_only_eq fun x => (hboth x).2⟩

theorem exists_done_of_view {x : Part} {o : Outcome Report} {r : Report} {p : Program}
    (h : o.view x = (done r p).view x) :
    ∃ r' p', o = done r' p' := by
  cases o with
  | done r' p' => exact ⟨r', p', rfl⟩
  | failed e p' => cases h
  | dangling => cases h

theorem andThen_assoc (x : Outcome α) (f : α → Program → Outcome β) (g : β → Program → Outcome γ) :
    (x.andThen f).andThen g = x.andThen fun a p => (f a p).andThen g := by
  cases x <;> rfl

theorem andThen_eq_done {x : Outcome α} {next : α → Program → Outcome β} {b : β} {q : Program}
    (h : x.andThen next = .done b q) : ∃ a p, x = .done a p ∧ next a p = .done b q := by
  cases x with
  | done a p => exact ⟨a, p, rfl, h⟩
  | failed e p => cases h
  | dangling => cases h

end Outcome

namespace Preparation

def part : Preparation → Part
  | lookups _ => .lookups
  | joins => .joins
  | storage => .storage
  | removees => .removees
  | recursion => .recursion

theorem part_ne_history (y : Preparation) : y.part ≠ .history := by
  cases y <;> simp [part]

def perform (r : Report) (p : Program) : Preparation → Outcome Report
  | lookups arrayIndexing =>
    (p.assignLookups arrayIndexing).andThen fun s q => .done { r with indexing := some s } q
  | joins => p.planJoins.andThen fun s q => .done { r with joins := some s } q
  | storage => p.delayStorage.andThen fun s q => .done { r with storage := some s } q
  | removees => p.findRemovees.andThen fun s q => .done { r with removees := some s } q
  | recursion => p.clearRecursion.andThen fun s q => .done { r with recursion := some s } q

variable {p : Program}

theorem view_andThen {α : Type} {x : Part} {o : Outcome α} {f g : α → Report}
    (h : ∀ s, (f s).keep x = g s) :
    (o.andThen fun s q => .done (f s) q).view x =
      (o.mapProgram (Program.only x)).andThen fun s q => .done (g s) q := by
  cases o with
  | done s q => exact congrArg (fun r => Outcome.done r (q.only x)) (h s)
  | failed e q => rfl
  | dangling => rfl

theorem perform_view (y : Preparation) (r : Report) (p : Program) :
    (y.perform r p).view y.part = y.perform (r.keep y.part) (p.only y.part) := by
  cases y with
  | lookups arrayIndexing =>
    simp only [perform, part, Program.assignLookups_only]
    exact view_andThen fun _ => rfl
  | joins =>
    simp only [perform, part, Program.planJoins_only]
    exact view_andThen fun _ => rfl
  | storage =>
    simp only [perform, part, Program.delayStorage_only]
    exact view_andThen fun _ => rfl
  | removees =>
    simp only [perform, part, Program.findRemovees_only]
    exact view_andThen fun _ => rfl
  | recursion =>
    simp only [perform, part, Program.clearRecursion_only]
    exact view_andThen fun _ => rfl

theorem perform_congr {y : Preparation} {r r' : Report} {p p' : Program}
    (h : (Outcome.done r' p').view y.part = (Outcome.done r p).view y.part) :
    (y.perform r' p').view y.part = (y.perform r p).view y.part := by
  obtain ⟨hr, hp⟩ := Outcome.done.inj h
  rw [perform_view, perform_view, hr, hp]

theorem view_of_leaves {α : Type} {x : Part} {o : Outcome α} {f : α → Report} {r r' : Report}
    {q : Program} (ho : o.Leaves fun q => q.only x = p.only x) (hf : ∀ s, (f s).keep x = r.keep x)
    (h : (o.andThen fun s q => .done (f s) q) = .done r' q) :
    (Outcome.done r' q).view x = (Outcome.done r p).view x := by
  obtain ⟨s, t, rfl, ht⟩ := Outcome.andThen_eq_done h
  cases ht
  simp only [Outcome.view, hf, show q.only x = p.only x from ho]

theorem perform_frame {y : Preparation} {x : Part} (hx : x ≠ y.part) {r r' : Report} {q : Program}
    (h : y.perform r p = .done r' q) : (Outcome.done r' q).view x = (Outcome.done r p).view x := by
  cases y with
  | lookups arrayIndexing =>
    refine view_of_leaves (p.assignLookups_frame hx arrayIndexing) (fun _ => ?_) h
    cases x with
    | lookups => exact absurd rfl hx
    | _ => rfl
  | joins =>
    refine view_of_leaves (p.planJoins_frame hx) (fun _ => ?_) h
    cases x with
    | joins => exact absurd rfl hx
    | _ => rfl
  | storage =>
    refine view_of_leaves (p.delayStorage_frame hx) (fun _ => ?_) h
    cases x with
    | storage => exact absurd rfl hx
    | _ => rfl
  | removees =>
    refine view_of_leaves (p.findRemovees_frame hx) (fun _ => ?_) h
    cases x with
    | removees => exact absurd rfl hx
    | _ => rfl
  | recursion =>
    refine view_of_leaves (p.clearRecursion_frame hx) (fun _ => ?_) h
    cases x with
    | recursion => exact absurd rfl hx
    | _ => rfl

theorem perform_ready (h : p.Ready) (y : Preparation) (r : Report) :
    ∃ r' q, y.perform r p = .done r' q ∧ q.Ready := by
  cases y with
  | lookups arrayIndexing =>
    obtain ⟨stats, q, hdone, hq, _⟩ := Program.assignLookups_ready h arrayIndexing
    exact ⟨_, q, by rw [perform, hdone, Outcome.andThen], hq⟩
  | joins =>
    obtain ⟨stats, q, hdone, hq, _⟩ := Program.planJoins_ready h
    exact ⟨_, q, by rw [perform, hdone, Outcome.andThen], hq⟩
  | storage =>
    obtain ⟨stats, q, hdone, hq, _⟩ := Program.delayStorage_ready h
    exact ⟨_, q, by rw [perform, hdone, Outcome.andThen], hq⟩
  | removees =>
    obtain ⟨stats, q, hdone, hq, _⟩ := Program.findRemovees_ready h
    exact ⟨_, q, by rw [perform, hdone, Outcome.andThen], hq⟩
  | recursion =>
    obtain ⟨stats, q, hdone, hq, _⟩ := Program.clearRecursion_ready h
    exact ⟨_, q, by rw [perform, hdone, Outcome.andThen], hq⟩

end Preparation

namespace Program

variable {p : Program}

def performAll (p : Program) (r : Report) : List Preparation → Outcome Report
  | [] => .done r p
  | x :: xs => (x.perform r p).andThen fun r q => q.performAll r xs

theorem performAll_append (p : Program) (r : Report) (xs ys : List Preparation) :
    p.performAll r (xs ++ ys) = (p.performAll r xs).andThen fun r q => q.performAll r ys := by
  induction xs generalizing p r with
  | nil => rfl
  | cons x xs ih =>
    rw [List.cons_append, performAll, performAll, Outcome.andThen_assoc]
    simp only [ih]

theorem performAll_ready (h : p.Ready) (xs : List Preparation) (r : Report) :
    ∃ r' q, p.performAll r xs = .done r' q ∧ q.Ready := by
  induction xs generalizing p r with
  | nil => exact ⟨r, p, rfl, h⟩
  | cons x xs ih =>
    obtain ⟨r₁, p₁, hdone, hp₁⟩ := x.perform_ready h r
    obtain ⟨r₂, p₂, hrest, hp₂⟩ := ih hp₁ r₁
    exact ⟨r₂, p₂, by rw [performAll, hdone]; exact hrest, hp₂⟩

theorem performAll_frame {xs : List Preparation} {x : Part} (hx : x ∉ xs.map Preparation.part)
    {r r' : Report} {q : Program} (h : p.performAll r xs = .done r' q) :
    (Outcome.done r' q).view x = (Outcome.done r p).view x := by
  induction xs generalizing p r with
  | nil =>
    cases h
    rfl
  | cons y ys ih =>
    rw [List.map_cons, List.mem_cons, not_or] at hx
    obtain ⟨hy, hys⟩ := hx
    obtain ⟨r₁, p₁, hone, hrest⟩ := Outcome.andThen_eq_done h
    exact (ih hys hrest).trans (Preparation.perform_frame hy hone)

/-- Each part is left as its own pass would have left it. -/
theorem performAll_view {xs : List Preparation} (hparts : (xs.map Preparation.part).Nodup)
    {r : Report} (hdone : ∀ y ∈ xs, ∃ r' q, y.perform r p = .done r' q) :
    ∃ r' q, p.performAll r xs = .done r' q ∧
      ∀ y ∈ xs, (Outcome.done r' q).view y.part = (y.perform r p).view y.part := by
  induction xs generalizing p r with
  | nil => exact ⟨r, p, rfl, fun y hy => by cases hy⟩
  | cons x xs ih =>
    obtain ⟨hx, hxs⟩ := List.nodup_cons.mp hparts
    obtain ⟨r₁, p₁, hone⟩ := hdone x List.mem_cons_self
    -- the passes that follow see their own parts as they were
    have hsame : ∀ y ∈ xs, (y.perform r₁ p₁).view y.part =
        (y.perform r p).view y.part := fun y hy =>
      Preparation.perform_congr
        (Preparation.perform_frame (fun he => hx (he ▸ List.mem_map_of_mem hy)) hone)
    have hdone' : ∀ y ∈ xs, ∃ r' q, y.perform r₁ p₁ = .done r' q := fun y hy => by
      obtain ⟨r', q, hy'⟩ := hdone y (List.mem_cons_of_mem _ hy)
      exact Outcome.exists_done_of_view ((hsame y hy).trans (by rw [hy']))
    obtain ⟨r₂, p₂, hrest, hview⟩ := ih hxs hdone'
    refine ⟨r₂, p₂, by rw [performAll, hone]; exact hrest, fun y hy => ?_⟩
    rcases List.mem_cons.mp hy with rfl | hy
    · rw [performAll_frame hx hrest, hone]
    · rw [hview y hy, hsame y hy]

/-- Two runs that perform the same passes, one for each part, agree. -/
theorem performAll_perm {xs ys : List Preparation} (h : xs.Perm ys)
    (hparts : (xs.map Preparation.part).Nodup) {r : Report}
    (hdone : ∀ y ∈ xs, ∃ r' q, y.perform r p = .done r' q) :
    p.performAll r ys = p.performAll r xs := by
  have hmap := h.map Preparation.part
  obtain ⟨r₁, p₁, hxs, hx⟩ := performAll_view hparts hdone
  obtain ⟨r₂, p₂, hys, hy⟩ :=
    performAll_view (hmap.nodup_iff.mp hparts) fun y hy => hdone y (h.mem_iff.mpr hy)
  have hview : ∀ x, (Outcome.done r₂ p₂).view x = (Outcome.done r₁ p₁).view x := fun x => by
    by_cases hmem : x ∈ xs.map Preparation.part
    · obtain ⟨y, hyx, rfl⟩ := List.mem_map.mp hmem
      rw [hx y hyx, hy y (h.mem_iff.mp hyx)]
    · rw [performAll_frame hmem hxs, performAll_frame (fun hc => hmem (hmap.mem_iff.mpr hc)) hys]
  obtain ⟨hr, hp⟩ := Outcome.eq_of_view_eq hview
  rw [hxs, hys, hr, hp]

end Program

def Settings.preparations (s : Settings) : List Preparation :=
  (if s.indexing then [.lookups s.arrayIndexing] else []) ++ ((if s.joins then [.joins] else []) ++
    ((if s.storage then [.storage] else []) ++ ((if s.removees then [.removees] else []) ++
      if s.recursion then [.recursion] else [])))

theorem Settings.nodup_preparations (s : Settings) :
    (s.preparations.map Preparation.part).Nodup := by
  simp only [preparations, List.map_append, apply_ite (List.map Preparation.part), List.map_cons,
    List.map_nil, Preparation.part]
  cases s.indexing <;> cases s.joins <;> cases s.storage <;> cases s.removees
    <;> cases s.recursion <;> decide

namespace Program

theorem optionally_andThen {α β : Type} {pass : Program → Outcome α} {y : Preparation}
    {f : Option α → Report} {p : Program}
    (hy : y.perform (f none) p = (pass p).andThen fun s q => .done (f (some s)) q) (wanted : Bool)
    (next : Report → Program → Outcome β) :
    ((Outcome.optionally wanted pass p).andThen fun s q => next (f s) q) =
      (p.performAll (f none) (if wanted then [y] else [])).andThen next := by
  cases wanted with
  | false => rfl
  | true =>
    simp only [Outcome.optionally, if_true, performAll, hy]
    cases pass p <;> rfl

theorem optimize_eq (settings : Settings) (p : Program) :
    p.optimize settings = (p.performAll {} settings.preparations).andThen fun r q =>
      (Outcome.optionally settings.history (elideHistory settings.duplicateElision) q).andThen
        fun h q => .done { r with history := h } q := by
  simp only [Settings.preparations, performAll_append, Outcome.andThen_assoc]
  refine Eq.trans ?_ (optionally_andThen (f := fun s => { indexing := s }) rfl _ _)
  refine congrArg _ (funext fun indexing => funext fun p => ?_)
  refine Eq.trans ?_ (optionally_andThen (f := fun s => { indexing, joins := s }) rfl _ _)
  refine congrArg _ (funext fun joins => funext fun p => ?_)
  refine Eq.trans ?_ (optionally_andThen (f := fun s => { indexing, joins, storage := s }) rfl _ _)
  refine congrArg _ (funext fun storage => funext fun p => ?_)
  refine Eq.trans ?_
    (optionally_andThen (f := fun s => { indexing, joins, storage, removees := s }) rfl _ _)
  refine congrArg _ (funext fun removees => funext fun p => ?_)
  refine Eq.trans ?_ (optionally_andThen
    (f := fun s => { indexing, joins, storage, removees, recursion := s }) rfl _ _)
  rfl

/-- `r` and `p` are what the wanted passes before history make of `p₀`. -/
structure Prepared (p₀ : Program) (settings : Settings) (r : Report) (p : Program) : Prop where
  run : p₀.performAll {} settings.preparations = .done r p
  ready : p.Ready
  ran : ∀ y ∈ settings.preparations, (Outcome.done r p).view y.part = (y.perform {} p₀).view y.part
  idle : ∀ x ∉ settings.preparations.map Preparation.part,
    (Outcome.done r p).view x = (Outcome.done {} p₀).view x

theorem Ready.prepared {p₀ : Program} (h : p₀.Ready) (settings : Settings) :
    ∃ r p, p₀.Prepared settings r p := by
  have hdone : ∀ y ∈ settings.preparations, ∃ r q, y.perform {} p₀ = .done r q := fun y _ => by
    obtain ⟨r, q, hy, _⟩ := y.perform_ready h {}
    exact ⟨r, q, hy⟩
  obtain ⟨r, p, hrun, hran⟩ := performAll_view settings.nodup_preparations hdone
  obtain ⟨_, _, hrun', hp⟩ := performAll_ready h settings.preparations {}
  rw [hrun] at hrun'
  cases hrun'
  exact ⟨r, p, hrun, hp, hran, fun x hx => performAll_frame hx hrun⟩

theorem Prepared.bare_eq {p₀ : Program} {settings : Settings} {r : Report} {p : Program}
    (h : p₀.Prepared settings r p) : p.bare = p₀.bare := by
  have hhistory : Part.history ∉ settings.preparations.map Preparation.part := fun hmem => by
    obtain ⟨y, _, hy⟩ := List.mem_map.mp hmem
    exact y.part_ne_history hy
  exact bare_eq_of_only_eq (Outcome.done.inj (h.idle .history hhistory)).2

theorem Prepared.only_eq_bare {p₀ : Program} {settings : Settings} {r : Report} {p : Program}
    (h : p₀.Prepared settings r p) (h₀ : p₀.Unannotated) {x : Part}
    (hx : x ∉ settings.preparations.map Preparation.part) : p.only x = p.bare := by
  calc p.only x = p₀.only x := (Outcome.done.inj (h.idle x hx)).2
    _ = p₀.bare.only x := by rw [h₀.bare_eq]
    _ = p₀.bare := only_bare x p₀
    _ = p.bare := h.bare_eq.symm

theorem Prepared.assigned {p₀ : Program} {settings : Settings} {r : Report} {p : Program}
    (h : p₀.Prepared settings r p) (hi : settings.indexing = true) : ∃ stats q,
      p₀.assignLookups settings.arrayIndexing = .done stats q ∧
        p.only .lookups = q.only .lookups := by
  have hran : (Outcome.done r p).view .lookups =
      ((Preparation.lookups settings.arrayIndexing).perform {} p₀).view .lookups :=
    h.ran (.lookups settings.arrayIndexing) (by simp [Settings.preparations, hi])
  obtain ⟨r', q', hdone⟩ := Outcome.exists_done_of_view hran.symm
  obtain ⟨stats, t, hassign, ht⟩ := Outcome.andThen_eq_done hdone
  obtain ⟨rfl, rfl⟩ := Outcome.done.inj ht
  rw [hdone] at hran
  exact ⟨stats, t, hassign, (Outcome.done.inj hran).2⟩

theorem optionally_elideHistory (h : p.Ready) (wanted elision : Bool) : ∃ stats q,
    Outcome.optionally wanted (elideHistory elision) p = .done stats q ∧ p.Rechecked q ∧
      (wanted = true → p.Remarked elision (p.Continues elision) q) ∧ (wanted = false → q = p) := by
  cases wanted with
  | false => exact ⟨none, p, rfl, ⟨rfl, rfl, rfl, rfl, rfl⟩, by simp, fun _ => rfl⟩
  | true =>
    obtain ⟨stats, q, hdone, hq⟩ := elideHistory_remarked h.wellFormed elision
    refine ⟨some stats, q, ?_, hq.rechecked, fun _ => hq, by simp⟩
    rw [Outcome.optionally, if_pos rfl, hdone, Outcome.andThen]

/-- The passes before history may run in whatever order, and history then ends where the whole
pipeline ends. -/
theorem performAll_order_irrelevant (steps : List BuildStep) (arrayIndexing : Bool) : ∃ report p,
    (∀ order : List Preparation,
      order.Perm [.lookups arrayIndexing, .joins, .storage, .removees, .recursion] →
      (build steps).performAll {} order = .done report p) ∧
    ∀ elision, ∃ stats q, p.elideHistory elision = .done stats q ∧
      (build steps).optimize { arrayIndexing, duplicateElision := elision } =
        .done { report with history := some stats } q := by
  have hready := build_ready steps
  obtain ⟨report, p, hrun, hp⟩ :=
    performAll_ready hready [.lookups arrayIndexing, .joins, .storage, .removees, .recursion] {}
  refine ⟨report, p, fun order horder => ?_, fun elision => ?_⟩
  · have hdone : ∀ y : Preparation, ∃ r q, y.perform {} (build steps) = .done r q := fun y => by
      obtain ⟨r, q, hy, _⟩ := y.perform_ready hready {}
      exact ⟨r, q, hy⟩
    rw [← hrun]
    exact performAll_perm horder.symm (Settings.nodup_preparations { arrayIndexing }) fun y _ =>
      hdone y
  · obtain ⟨stats, q, hdone, _⟩ := elideHistory_remarked hp.wellFormed elision
    refine ⟨stats, q, hdone, ?_⟩
    rw [optimize_eq]
    simp only [Settings.preparations, if_true, List.cons_append, List.nil_append, hrun,
      Outcome.andThen, hdone, Outcome.optionally]

end Program

end ConstraintRules
