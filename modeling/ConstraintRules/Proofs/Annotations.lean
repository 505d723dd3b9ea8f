import ConstraintRules.Proofs.PassOrder
import Mathlib.Data.List.Forall2

/-! What passes annotate. Each writes its own annotations where they apply; marks
are only cleared and categories only frozen. -/

namespace ConstraintRules

open Activation

section Forall₂

variable {α : Type} {R : α → α → Prop} {xs ys zs : List α}

theorem forall₂_map {f : α → α} (h : ∀ x ∈ xs, R x (f x)) : List.Forall₂ R xs (xs.map f) :=
  List.forall₂_map_right_iff.mpr (List.forall₂_same.mpr h)

theorem forall₂_modify (hrefl : ∀ x, R x x) {i : Nat} {f : α → α}
    (h : ∀ x, xs[i]? = some x → R x (f x)) :
    List.Forall₂ R xs (xs.modify i f) := by
  induction xs generalizing i with
  | nil => simp
  | cons x xs ih =>
    cases i with
    | zero => exact .cons (h x rfl) (List.forall₂_same.mpr fun y _ => hrefl y)
    | succ i => exact .cons (hrefl x) (ih h)

theorem forall₂_trans (htrans : ∀ x y z, R x y → R y z → R x z) (h : List.Forall₂ R xs ys)
    (h' : List.Forall₂ R ys zs) : List.Forall₂ R xs zs := by
  induction h generalizing zs with
  | nil => exact h'
  | cons hxy _ ih =>
    cases h' with
    | cons hyz hrest => exact .cons (htrans _ _ _ hxy hyz) (ih hrest)

theorem map_eq_of_forall₂ {β : Type} {f : α → β} (h : List.Forall₂ R xs ys)
    (hf : ∀ x y, R x y → f y = f x) :
    ys.map f = xs.map f := by
  induction h with
  | nil => rfl
  | cons hxy _ ih => rw [List.map_cons, List.map_cons, hf _ _ hxy, ih]

theorem forall₂_of_mapM {β : Type} {f : α → Option β} {ys : List β} (h : xs.mapM f = some ys) :
    List.Forall₂ (fun x y => f x = some y) xs ys := by
  have hmap : List.Forall₂ Eq (xs.map f) (ys.map some) := by
    rw [List.forall₂_eq_eq_eq]
    exact Program.mapM_eq_some_iff.mp h
  rwa [List.forall₂_map_left_iff, List.forall₂_map_right_iff] at hmap

end Forall₂

inductive Pass where
  | prepare (x : Preparation)
  | history (elision : Bool)

namespace Pass

def run (p : Program) : Pass → Outcome Unit
  | prepare x => x.run p
  | history elision => (p.elideHistory elision).andThen fun _ q => .done () q

def part : Pass → Part
  | prepare x => x.part
  | history _ => .history

end Pass

/-- The program that is left, whether the pass was done or failed. -/
def Outcome.program? {α : Type} : Outcome α → Option Program
  | done _ q => some q
  | failed _ q => some q
  | dangling => none

theorem Outcome.program?_andThen_done {α β : Type} (x : Outcome α) (b : β) :
    (x.andThen fun _ q => .done b q).program? = x.program? := by
  cases x <;> rfl

/-- A category that may have been frozen in between. -/
def Category.FreezesTo (c d : Category) : Prop :=
  ∃ frozen, d = { c with frozen } ∧ (c.frozen = true → frozen = true)

/-- The categories are the same but for those that were frozen in between. -/
def Categories.FreezesTo (cs ds : Categories) : Prop :=
  ∃ list, ds = { cs with list } ∧ List.Forall₂ Category.FreezesTo cs.list list

/-- How the pass of a part may change a constraint. -/
def Constraint.AnnotatedBy (x : Part) (k k' : Constraint) : Prop :=
  match x with
  | .lookups => ∃ categories, k' = { k with categories }
  | .removees => ∃ removees, k' = { k with removees }
  | .recursion =>
    ∃ isRecursive, k' = { k with isRecursive } ∧ (k.isRecursive = false → isRecursive = false)
  | .history => ∃ categories, k' = { k with categories } ∧ k.categories.FreezesTo categories
  | .joins | .storage => k' = k

def Rule.AnnotatedBy (x : Part) (r r' : Rule) : Prop :=
  match x with
  | .joins => ∃ hints, r' = { r with hints } ∧ (r.head.length < 2 → hints = r.hints)
  | .history =>
    ∃ needsHistory, r' = { r with needsHistory } ∧ (r.needsHistory = false → needsHistory = false)
  | .lookups | .storage | .removees | .recursion => r' = r

def Occurrence.AnnotatedBy (x : Part) (o o' : Occurrence) : Prop :=
  match x with
  | .lookups => ∃ lookups, o' = { o with lookups } ∧ (o.isActive = false → lookups = o.lookups)
  | .storage => ∃ stored, o' = { o with stored } ∧ (o.stored = false → stored = false) ∧
    (o.isActive = false → stored = o.stored)
  | .history =>
    ∃ checkHistory, o' = { o with checkHistory } ∧ (o.checkHistory = false → checkHistory = false) ∧
    (o.head ≠ .positive → checkHistory = o.checkHistory)
  | .joins | .removees | .recursion => o' = o

theorem Category.freezesTo_refl (c : Category) : c.FreezesTo c := ⟨c.frozen, rfl, fun h => h⟩

theorem Category.FreezesTo.trans {c d e : Category} (h : c.FreezesTo d) (h' : d.FreezesTo e) :
    c.FreezesTo e := by
  obtain ⟨frozen, rfl, hfrozen⟩ := h
  obtain ⟨frozen', rfl, hfrozen'⟩ := h'
  exact ⟨frozen', rfl, fun hc => hfrozen' (hfrozen hc)⟩

theorem Categories.freezesTo_refl (cs : Categories) : cs.FreezesTo cs :=
  ⟨cs.list, rfl, List.forall₂_same.mpr fun c _ => c.freezesTo_refl⟩

theorem Categories.FreezesTo.trans {cs ds es : Categories} (h : cs.FreezesTo ds)
    (h' : ds.FreezesTo es) :
    cs.FreezesTo es := by
  obtain ⟨_, rfl, hlist⟩ := h
  obtain ⟨list, rfl, hlist'⟩ := h'
  exact ⟨list, rfl, forall₂_trans (fun _ _ _ => Category.FreezesTo.trans) hlist hlist'⟩

theorem Constraint.annotatedBy_refl (x : Part) (k : Constraint) : k.AnnotatedBy x k := by
  cases x with
  | lookups => exact ⟨k.categories, rfl⟩
  | removees => exact ⟨k.removees, rfl⟩
  | recursion => exact ⟨k.isRecursive, rfl, fun h => h⟩
  | history => exact ⟨k.categories, rfl, k.categories.freezesTo_refl⟩
  | joins => rfl
  | storage => rfl

theorem Constraint.AnnotatedBy.trans {x : Part} {k l m : Constraint} (h : k.AnnotatedBy x l)
    (h' : l.AnnotatedBy x m) :
    k.AnnotatedBy x m := by
  cases x with
  | lookups =>
    obtain ⟨_, rfl⟩ := h
    obtain ⟨categories, rfl⟩ := h'
    exact ⟨categories, rfl⟩
  | removees =>
    obtain ⟨_, rfl⟩ := h
    obtain ⟨removees, rfl⟩ := h'
    exact ⟨removees, rfl⟩
  | recursion =>
    obtain ⟨_, rfl, hk⟩ := h
    obtain ⟨isRecursive, rfl, hl⟩ := h'
    exact ⟨isRecursive, rfl, fun hfalse => hl (hk hfalse)⟩
  | history =>
    obtain ⟨_, rfl, hk⟩ := h
    obtain ⟨categories, rfl, hl⟩ := h'
    exact ⟨categories, rfl, hk.trans hl⟩
  | joins => exact Eq.trans h' h
  | storage => exact Eq.trans h' h

theorem Rule.annotatedBy_refl (x : Part) (r : Rule) : r.AnnotatedBy x r := by
  cases x with
  | joins => exact ⟨r.hints, rfl, fun _ => rfl⟩
  | history => exact ⟨r.needsHistory, rfl, fun h => h⟩
  | lookups | storage | removees | recursion => rfl

theorem Rule.AnnotatedBy.trans {x : Part} {r s t : Rule} (h : r.AnnotatedBy x s)
    (h' : s.AnnotatedBy x t) :
    r.AnnotatedBy x t := by
  cases x with
  | joins =>
    obtain ⟨_, rfl, hr⟩ := h
    obtain ⟨hints, rfl, hs⟩ := h'
    exact ⟨hints, rfl, fun hshort => (hs hshort).trans (hr hshort)⟩
  | history =>
    obtain ⟨_, rfl, hr⟩ := h
    obtain ⟨needsHistory, rfl, hs⟩ := h'
    exact ⟨needsHistory, rfl, fun hfalse => hs (hr hfalse)⟩
  | lookups | storage | removees | recursion => exact Eq.trans h' h

theorem Occurrence.annotatedBy_refl (x : Part) (o : Occurrence) : o.AnnotatedBy x o := by
  cases x with
  | lookups => exact ⟨o.lookups, rfl, fun _ => rfl⟩
  | storage => exact ⟨o.stored, rfl, fun h => h, fun _ => rfl⟩
  | history => exact ⟨o.checkHistory, rfl, fun h => h, fun _ => rfl⟩
  | joins | removees | recursion => rfl

theorem Occurrence.AnnotatedBy.trans {x : Part} {o u v : Occurrence} (h : o.AnnotatedBy x u)
    (h' : u.AnnotatedBy x v) :
    o.AnnotatedBy x v := by
  cases x with
  | lookups =>
    obtain ⟨_, rfl, ho⟩ := h
    obtain ⟨lookups, rfl, hu⟩ := h'
    exact ⟨lookups, rfl, fun hpassive => (hu hpassive).trans (ho hpassive)⟩
  | storage =>
    obtain ⟨_, rfl, ho, hpassive⟩ := h
    obtain ⟨stored, rfl, hu, hpassive'⟩ := h'
    exact ⟨stored, rfl, fun hfalse => hu (ho hfalse), fun hp => (hpassive' hp).trans (hpassive hp)⟩
  | history =>
    obtain ⟨_, rfl, ho, hnegative⟩ := h
    obtain ⟨checkHistory, rfl, hu, hnegative'⟩ := h'
    exact ⟨checkHistory, rfl, fun hfalse => hu (ho hfalse),
      fun hn => (hnegative' hn).trans (hnegative hn)⟩
  | joins | removees | recursion => exact Eq.trans h' h

namespace Program

variable {p q t : Program} {x : Part}

/-- The programs have the same symbols, and their records correspond one by one. -/
structure Revised (C : Constraint → Constraint → Prop) (R : Rule → Rule → Prop)
    (O : Occurrence → Occurrence → Prop) (p q : Program) : Prop where
  symbols_eq : q.symbols = p.symbols
  constraints : List.Forall₂ C p.constraints q.constraints
  rules : List.Forall₂ R p.rules q.rules
  occurrences : List.Forall₂ O p.occurrences q.occurrences

section Revised

variable {C C' : Constraint → Constraint → Prop} {R R' : Rule → Rule → Prop}
  {O O' : Occurrence → Occurrence → Prop}

theorem Revised.refl (hC : ∀ k, C k k) (hR : ∀ r, R r r) (hO : ∀ o, O o o) (p : Program) :
    p.Revised C R O p where
  symbols_eq := rfl
  constraints := List.forall₂_same.mpr fun k _ => hC k
  rules := List.forall₂_same.mpr fun r _ => hR r
  occurrences := List.forall₂_same.mpr fun o _ => hO o

theorem Revised.trans (hC : ∀ k l m, C k l → C l m → C k m) (hR : ∀ r s t, R r s → R s t → R r t)
    (hO : ∀ o u v, O o u → O u v → O o v) (h : p.Revised C R O q) (h' : q.Revised C R O t) :
    p.Revised C R O t where
  symbols_eq := h'.symbols_eq.trans h.symbols_eq
  constraints := forall₂_trans hC h.constraints h'.constraints
  rules := forall₂_trans hR h.rules h'.rules
  occurrences := forall₂_trans hO h.occurrences h'.occurrences

theorem Revised.mono (hC : ∀ k l, C k l → C' k l) (hR : ∀ r s, R r s → R' r s)
    (hO : ∀ o u, O o u → O' o u) (h : p.Revised C R O q) : p.Revised C' R' O' q where
  symbols_eq := h.symbols_eq
  constraints := h.constraints.imp hC
  rules := h.rules.imp hR
  occurrences := h.occurrences.imp hO

end Revised

/-- How the pass of a part may change a program. -/
def AnnotatedBy (x : Part) (p q : Program) : Prop :=
  p.Revised (Constraint.AnnotatedBy x) (Rule.AnnotatedBy x) (Occurrence.AnnotatedBy x) q

namespace AnnotatedBy

theorem refl (x : Part) (p : Program) : p.AnnotatedBy x p :=
  Revised.refl (Constraint.annotatedBy_refl x) (Rule.annotatedBy_refl x)
    (Occurrence.annotatedBy_refl x) p

theorem trans (h : p.AnnotatedBy x q) (h' : q.AnnotatedBy x t) : p.AnnotatedBy x t :=
  Revised.trans (fun _ _ _ => Constraint.AnnotatedBy.trans) (fun _ _ _ => Rule.AnnotatedBy.trans)
    (fun _ _ _ => Occurrence.AnnotatedBy.trans) h h'

theorem of_constraints {ks : List Constraint}
    (h : List.Forall₂ (Constraint.AnnotatedBy x) p.constraints ks) :
    p.AnnotatedBy x { p with constraints := ks } :=
  { refl x p with constraints := h }

theorem of_rules {rs : List Rule} (h : List.Forall₂ (Rule.AnnotatedBy x) p.rules rs) :
    p.AnnotatedBy x { p with rules := rs } :=
  { refl x p with rules := h }

theorem of_occurrences {os : List Occurrence}
    (h : List.Forall₂ (Occurrence.AnnotatedBy x) p.occurrences os) :
    p.AnnotatedBy x { p with occurrences := os } :=
  { refl x p with occurrences := h }

theorem bare_eq (h : p.AnnotatedBy x q) : q.bare = p.bare := by
  have hconstraints : q.constraints.map Constraint.bare = p.constraints.map Constraint.bare :=
    map_eq_of_forall₂ h.constraints fun k k' hk => by
      cases x with
      | lookups | removees => obtain ⟨_, rfl⟩ := hk; rfl
      | recursion | history => obtain ⟨_, rfl, _⟩ := hk; rfl
      | joins | storage => exact congrArg _ hk
  have hrules : q.rules.map Rule.bare = p.rules.map Rule.bare :=
    map_eq_of_forall₂ h.rules fun r r' hr => by
      cases x with
      | joins | history => obtain ⟨_, rfl, _⟩ := hr; rfl
      | lookups | storage | removees | recursion => exact congrArg _ hr
  have hoccurrences : q.occurrences.map Occurrence.bare = p.occurrences.map Occurrence.bare :=
    map_eq_of_forall₂ h.occurrences fun o o' ho => by
      cases x with
      | lookups | storage | history => obtain ⟨_, rfl, _⟩ := ho; rfl
      | joins | removees | recursion => exact congrArg _ ho
  simp only [bare, h.symbols_eq, hconstraints, hrules, hoccurrences]

theorem sameShape (h : p.AnnotatedBy x q) : p.SameShape q := .of_bare_eq h.bare_eq

end AnnotatedBy

section Passes

theorem clearLookups_annotated (p : Program) : p.AnnotatedBy .lookups p.clearLookups := by
  refine .of_occurrences (forall₂_map fun o _ => ?_)
  by_cases ha : o.isActive = true
  · rw [if_pos ha]
    exact ⟨[], rfl, fun hpassive => by rw [ha] at hpassive; cases hpassive⟩
  · rw [if_neg ha]
    exact o.annotatedBy_refl .lookups

theorem withLookup_annotated {s : Search} (hs : s.Fits p) (id : CategoryId) (cs : Categories) :
    p.AnnotatedBy .lookups (p.withLookup s id cs) := by
  refine .trans
    (.of_constraints (forall₂_modify (Constraint.annotatedBy_refl _) fun k _ => ⟨cs, rfl⟩))
    (.of_occurrences (forall₂_modify (Occurrence.annotatedBy_refl _) fun o ho =>
      ⟨_, rfl, fun hpassive => ?_⟩))
  -- the occurrence that is written to is the active one of the search
  obtain ⟨u, hu, ha⟩ := hs.active
  rw [show o = u from Option.some.inj (ho.symm.trans hu), ha] at hpassive
  cases hpassive

theorem recordAll_annotated {plan : List Search} (hplan : ∀ s ∈ plan, s.Fits p) :
    p.AnnotatedBy .lookups (p.recordAll plan).2 := by
  induction plan generalizing p with
  | nil => exact .refl _ p
  | cons s rest ih =>
    have hs := hplan s List.mem_cons_self
    rcases record_cases hs with ⟨k, id, cs, hk, _, hrecord, hgrown, _⟩ | ⟨hrecord, _⟩
    · have hre := withLookup_reindexed hk id hgrown
      simp only [recordAll, hrecord]
      exact (withLookup_annotated hs id cs).trans (ih fun s' hs' =>
        (hplan s' (List.mem_cons_of_mem _ hs')).reindexed hre)
    · simp only [recordAll, hrecord]
      exact .refl _ p

theorem electMasters_annotated (p : Program) : p.AnnotatedBy .lookups p.electMasters :=
  .of_constraints (forall₂_map fun _ _ => ⟨_, rfl⟩)

section Arranged

variable (h : p.Arranged)

include h

theorem assignLookups_annotated (arrayIndexing : Bool) :
    ∃ q, (p.assignLookups arrayIndexing).program? = some q ∧ p.AnnotatedBy .lookups q := by
  obtain ⟨plan, hplan, hfits⟩ := h.searchPlan?_eq_some arrayIndexing
  have hclear := p.clearLookups_annotated
  have hrecord := hclear.trans (recordAll_annotated fun s hs =>
    (hfits s hs).reindexed p.clearLookups_carries.reindexed)
  rw [assignLookups, hplan]
  cases hrun : p.clearLookups.recordAll plan with
  | mk e q =>
    rw [hrun] at hrecord
    cases e with
    | some e => exact ⟨q, by simp only [hrun, Outcome.program?], hrecord⟩
    | none =>
      exact ⟨q.electMasters, by simp only [hrun, Outcome.program?],
        hrecord.trans q.electMasters_annotated⟩

theorem planJoins_annotated : ∃ q, p.planJoins.program? = some q ∧ p.AnnotatedBy .joins q := by
  obtain ⟨rules, _, stats, hdone⟩ := planJoins_eq h
  refine ⟨{ p with rules }, by rw [hdone]; rfl, .of_rules ?_⟩
  have hmapM : p.rules.mapM p.withHints? = some rules := by
    rw [planJoins] at hdone
    cases hrules : p.rules.mapM p.withHints? with
    | none => simp [hrules] at hdone
    | some rules' =>
      simp only [hrules, Outcome.done.injEq, Program.mk.injEq] at hdone
      rw [hdone.2.2.2.1]
  refine (forall₂_of_mapM hmapM).imp fun r r' hr => ?_
  by_cases hj : r.hasJoin = true
  · rw [withHints?, if_pos hj] at hr
    obtain ⟨g, _, rfl⟩ := Option.map_eq_some_iff.mp hr
    have hlong : 2 ≤ r.head.length := of_decide_eq_true hj
    exact ⟨some g.hints, rfl, fun hshort => by omega⟩
  · rw [withHints?, if_neg hj] at hr
    cases hr
    exact r.annotatedBy_refl .joins

theorem delayStorage_annotated :
    ∃ q, p.delayStorage.program? = some q ∧ p.AnnotatedBy .storage q := by
  rw [delayStorage]
  rcases observationSession?_cases h with ⟨d, hd⟩ | ⟨s, hs⟩
  · exact ⟨p, by rw [hd]; rfl, .refl _ p⟩
  · rw [hs]
    refine ⟨_, rfl, .of_occurrences (forall₂_map fun o _ => ?_)⟩
    rw [delay]
    by_cases hw : p.canWait (s.rememberAll p.bodies) o = true
    · rw [if_pos hw]
      simp only [canWait, Bool.and_eq_true] at hw
      exact ⟨false, rfl, fun _ => rfl, fun hpassive => by rw [hw.1.1] at hpassive; cases hpassive⟩
    · rw [if_neg hw]
      exact o.annotatedBy_refl .storage

omit h in
theorem noteCalls_annotated {α : Type} {x : Part} {further : Option (List Fact)} {facts : List Fact}
    (hfacts : further = some facts) {note : Session → Constraint → Constraint} {stats : Session → α}
    (hnote : ∀ s, ∀ k ∈ p.constraints, k.AnnotatedBy x (note s k)) :
    ∃ q, (p.noteCalls further note stats).program? = some q ∧ p.AnnotatedBy x q := by
  rw [noteCalls, hfacts]
  rcases p.callSession?_cases facts with ⟨d, hd⟩ | ⟨s, hs⟩
  · exact ⟨p, by rw [hd]; rfl, .refl _ p⟩
  · rw [hs]
    exact ⟨_, rfl, .of_constraints (forall₂_map fun k hk => hnote _ k hk)⟩

theorem findRemovees_annotated :
    ∃ q, p.findRemovees.program? = some q ∧ p.AnnotatedBy .removees q := by
  obtain ⟨facts, hfacts, _⟩ := removalFacts?_eq_some h
  exact noteCalls_annotated hfacts fun _ _ _ => ⟨_, rfl⟩

theorem clearRecursion_annotated :
    ∃ q, p.clearRecursion.program? = some q ∧ p.AnnotatedBy .recursion q := by
  obtain ⟨facts, hfacts, _⟩ := stackFacts?_eq_some h
  refine noteCalls_annotated hfacts fun s k _ => ⟨_, rfl, fun hfalse => ?_⟩
  rw [hfalse, Bool.false_and]

theorem dropHistory_annotated {dropped : List Rule} (hdropped : dropped ⊆ p.rules) :
    p.AnnotatedBy .history (p.dropHistory dropped) := by
  refine .trans (.of_rules (forall₂_map fun r _ => ?_))
    (.of_occurrences (forall₂_map fun o ho => ?_))
  · by_cases hr : r.id ∈ dropped.map Rule.id
    · rw [if_pos hr]
      exact ⟨false, rfl, fun _ => rfl⟩
    · rw [if_neg hr]
      exact r.annotatedBy_refl .history
  · by_cases hin : o.id ∈ dropped.flatMap Rule.head
    · rw [if_pos hin]
      obtain ⟨r, hr, hid⟩ := List.mem_flatMap.mp hin
      exact ⟨false, rfl, fun _ => rfl,
        fun hneg => absurd ((h.mem_head ho (hdropped hr)).mp hid).2 hneg⟩
    · rw [if_neg hin]
      exact o.annotatedBy_refl .history

theorem clearChecks_annotated {ids : List OccurrenceId}
    (hids : ∀ id ∈ ids, ∃ o ∈ p.active, o.id = id) :
    p.AnnotatedBy .history (p.clearChecks ids) := by
  refine .of_occurrences (forall₂_map fun o ho => ?_)
  by_cases hin : o.id ∈ ids
  · rw [if_pos hin]
    obtain ⟨u, hu, hid⟩ := hids o.id hin
    obtain ⟨hu, ha⟩ := mem_active.mp hu
    rw [h.eq_of_id_eq hu ho hid] at ha
    exact ⟨false, rfl, fun _ => rfl, fun hneg => absurd (head_of_isActive ha) hneg⟩
  · rw [if_neg hin]
    exact o.annotatedBy_refl .history

end Arranged

theorem freezeCategories_annotated (p : Program) (reads : List (ConstraintId × CategoryId)) :
    p.AnnotatedBy .history (p.freezeCategories reads) := by
  induction reads generalizing p with
  | nil => exact .refl _ p
  | cons cc reads ih =>
    refine .trans (.of_constraints (forall₂_modify (Constraint.annotatedBy_refl _) fun k _ => ?_))
      (ih _)
    exact ⟨_, rfl, _, rfl, forall₂_modify Category.freezesTo_refl fun c _ =>
      ⟨true, rfl, fun _ => rfl⟩⟩

theorem elideHistory_annotated (h : p.Arranged) (elision : Bool) :
    ∃ q, (p.elideHistory elision).program? = some q ∧ p.AnnotatedBy .history q := by
  rcases observationSession?_cases h with ⟨d, hd⟩ | ⟨s, hs⟩
  · exact ⟨p, by rw [elideHistory, hd]; rfl, .refl _ p⟩
  · obtain ⟨vs, q, hvs, rfl, hdone⟩ := h.elideHistory_eq hs elision
    have hdismiss : p.AnnotatedBy .history p.dismiss := dropHistory_annotated h (by simp)
    have h₁ := h.of_sameShape hdismiss.sameShape
    obtain ⟨vs', hvs', hjudged⟩ := h₁.verdicts?_judged (s.rememberAll p.bodies) elision
    rw [hvs] at hvs'
    cases hvs'
    -- verdicts are given on active occurrences, and those stand in positive heads
    have hspare : p.AnnotatedBy .history (p.dismiss.spare vs) := by
      refine (hdismiss.trans (clearChecks_annotated h₁ fun id hid => ?_)).trans
        (freezeCategories_annotated _ _)
      obtain ⟨⟨id, v⟩, hv, rfl⟩ := List.mem_map.mp hid
      obtain ⟨o, ho, hoid, _⟩ := (hjudged id v).mp (List.mem_filter.mp hv).1
      exact ⟨o, ho, hoid⟩
    exact ⟨_, by rw [hdone]; rfl,
      hspare.trans (dropHistory_annotated (h.of_sameShape hspare.sameShape) (by simp))⟩

theorem Arranged.annotatedBy_run (h : p.Arranged) (x : Pass) :
    ∃ q, (x.run p).program? = some q ∧ p.AnnotatedBy x.part q := by
  cases x with
  | history elision =>
    rw [Pass.run, Outcome.program?_andThen_done]
    exact elideHistory_annotated h elision
  | prepare x =>
    cases x with
    | lookups arrayIndexing =>
      rw [Pass.run, Preparation.run, Outcome.program?_andThen_done]
      exact assignLookups_annotated h arrayIndexing
    | joins =>
      rw [Pass.run, Preparation.run, Outcome.program?_andThen_done]
      exact planJoins_annotated h
    | storage =>
      rw [Pass.run, Preparation.run, Outcome.program?_andThen_done]
      exact delayStorage_annotated h
    | removees =>
      rw [Pass.run, Preparation.run, Outcome.program?_andThen_done]
      exact findRemovees_annotated h
    | recursion =>
      rw [Pass.run, Preparation.run, Outcome.program?_andThen_done]
      exact clearRecursion_annotated h

end Passes

/-- Marks that were clear still are. -/
def Cleared (p q : Program) : Prop :=
  p.Revised (fun k k' => k.isRecursive = false → k'.isRecursive = false)
    (fun r r' => r.needsHistory = false → r'.needsHistory = false)
    (fun o o' => (o.stored = false → o'.stored = false) ∧
      (o.checkHistory = false → o'.checkHistory = false)) q

theorem Cleared.refl (p : Program) : p.Cleared p :=
  Revised.refl (fun _ h => h) (fun _ h => h) (fun _ => ⟨fun h => h, fun h => h⟩) p

theorem Cleared.trans (h : p.Cleared q) (h' : q.Cleared t) : p.Cleared t :=
  Revised.trans (fun _ _ _ hk hl hfalse => hl (hk hfalse))
    (fun _ _ _ hr hs hfalse => hs (hr hfalse))
    (fun _ _ _ ho hu => ⟨fun hfalse => hu.1 (ho.1 hfalse), fun hfalse => hu.2 (ho.2 hfalse)⟩) h h'

theorem AnnotatedBy.cleared (h : p.AnnotatedBy x q) : p.Cleared q := by
  refine h.mono (fun k k' hk hfalse => ?_) (fun r r' hr hfalse => ?_) fun o o' ho =>
    ⟨fun hfalse => ?_, fun hfalse => ?_⟩
  · cases x with
    | lookups | removees => obtain ⟨_, rfl⟩ := hk; exact hfalse
    | recursion => obtain ⟨_, rfl, hclear⟩ := hk; exact hclear hfalse
    | history => obtain ⟨_, rfl, _⟩ := hk; exact hfalse
    | joins | storage => rw [show k' = k from hk, hfalse]
  · cases x with
    | joins => obtain ⟨_, rfl, _⟩ := hr; exact hfalse
    | history => obtain ⟨_, rfl, hclear⟩ := hr; exact hclear hfalse
    | lookups | storage | removees | recursion => rw [show r' = r from hr, hfalse]
  · cases x with
    | lookups | history => obtain ⟨_, rfl, _⟩ := ho; exact hfalse
    | storage => obtain ⟨_, rfl, hclear, _⟩ := ho; exact hclear hfalse
    | joins | removees | recursion => rw [show o' = o from ho, hfalse]
  · cases x with
    | lookups | storage => obtain ⟨_, rfl, _⟩ := ho; exact hfalse
    | history => obtain ⟨_, rfl, hclear, _⟩ := ho; exact hclear hfalse
    | joins | removees | recursion => rw [show o' = o from ho, hfalse]

/-- The program after passes, each run on what the one before has left, be it done or failed. -/
def after? (p : Program) (xs : List Pass) : Option Program :=
  xs.foldlM (fun p x => (x.run p).program?) p

theorem Arranged.after?_cleared (h : p.Arranged) (xs : List Pass) :
    ∃ q, p.after? xs = some q ∧ p.Cleared q := by
  induction xs generalizing p with
  | nil => exact ⟨p, rfl, .refl p⟩
  | cons x xs ih =>
    obtain ⟨q, hrun, hq⟩ := h.annotatedBy_run x
    obtain ⟨t, hrest, ht⟩ := ih (h.of_sameShape hq.sameShape)
    refine ⟨t, ?_, hq.cleared.trans ht⟩
    rw [after?, List.foldlM_cons, hrun]
    exact hrest

end Program

/-- The marks of a constraint, of a rule and of an occurrence that anyone may set. -/
inductive Flag where
  | isPrivate (c : ConstraintId)
  | isLocal (c : ConstraintId)
  | exported (c : ConstraintId)
  | reactive (c : ConstraintId)
  | setSemantics (c : ConstraintId)
  | mayBeStored (c : ConstraintId)
  | isRecursive (c : ConstraintId)
  | needsHistory (r : RuleId)
  | passive (o : OccurrenceId)
  | removed (o : OccurrenceId)
  | stored (o : OccurrenceId)
  | checkHistory (o : OccurrenceId)

def Flag.set (p : Program) (value : Bool) : Flag → Program
  | isPrivate c =>
    p.modifyConstraint c fun k => { k with modifiers := { k.modifiers with isPrivate := value } }
  | isLocal c =>
    p.modifyConstraint c fun k => { k with modifiers := { k.modifiers with isLocal := value } }
  | exported c =>
    p.modifyConstraint c fun k => { k with modifiers := { k.modifiers with exported := value } }
  | reactive c =>
    p.modifyConstraint c fun k => { k with modifiers := { k.modifiers with reactive := value } }
  | setSemantics c => p.modifyConstraint c fun k => { k with setSemantics := value }
  | mayBeStored c => p.modifyConstraint c fun k => { k with mayBeStored := value }
  | isRecursive c => p.modifyConstraint c fun k => { k with isRecursive := value }
  | needsHistory r => p.modifyRule r fun r => { r with needsHistory := value }
  | passive o => p.modifyOccurrence o fun o => { o with passive := value }
  | removed o => p.modifyOccurrence o fun o => { o with removed := value }
  | stored o => p.modifyOccurrence o fun o => { o with stored := value }
  | checkHistory o => p.modifyOccurrence o fun o => { o with checkHistory := value }

/-- What may happen to a program whose heads and identifiers are left alone. -/
inductive Edit where
  | run (x : Pass)
  | set (flag : Flag) (value : Bool)
  | replaceBody (r : RuleId) (body : List Goal)

namespace Program

variable {p q : Program}

def edit? (p : Program) : Edit → Option Program
  | .run x => (x.run p).program?
  | .set flag value => some (flag.set p value)
  | .replaceBody r body => some (p.modifyRule r fun r => { r with body })

theorem modifyConstraint_sameShape (c : ConstraintId) {f : Constraint → Constraint}
    (hf : ∀ k, (f k).shape = k.shape) :
    p.SameShape (p.modifyConstraint c f) :=
  ⟨map_modify_eq fun k _ => hf k, rfl, rfl⟩

theorem modifyRule_sameShape (r : RuleId) {f : Rule → Rule} (hf : ∀ r, (f r).shape = r.shape) :
    p.SameShape (p.modifyRule r f) :=
  ⟨rfl, map_modify_eq fun r _ => hf r, rfl⟩

theorem modifyOccurrence_sameShape (o : OccurrenceId) {f : Occurrence → Occurrence}
    (hf : ∀ o, (f o).shape = o.shape) :
    p.SameShape (p.modifyOccurrence o f) :=
  ⟨rfl, rfl, map_modify_eq fun o _ => hf o⟩

theorem Arranged.edit?_eq_some (h : p.Arranged) (e : Edit) :
    ∃ q, p.edit? e = some q ∧ q.Arranged := by
  cases e with
  | run x =>
    obtain ⟨q, hrun, hq⟩ := h.annotatedBy_run x
    exact ⟨q, hrun, h.of_sameShape hq.sameShape⟩
  | replaceBody r body => exact ⟨_, rfl, h.of_sameShape (modifyRule_sameShape r fun _ => rfl)⟩
  | set flag value =>
    refine ⟨_, rfl, h.of_sameShape ?_⟩
    cases flag with
    | needsHistory r => exact modifyRule_sameShape r fun _ => rfl
    | passive o | removed o | stored o | checkHistory o =>
      exact modifyOccurrence_sameShape o fun _ => rfl
    | _ c => exact modifyConstraint_sameShape c fun _ => rfl

theorem Arranged.edits_eq_some (h : p.Arranged) (edits : List Edit) :
    ∃ q, edits.foldlM edit? p = some q ∧ q.Arranged := by
  induction edits generalizing p with
  | nil => exact ⟨p, rfl, h⟩
  | cons e edits ih =>
    obtain ⟨q, hq, hqa⟩ := h.edit?_eq_some e
    obtain ⟨t, ht, hta⟩ := ih hqa
    refine ⟨t, ?_, hta⟩
    rw [List.foldlM_cons, hq]
    exact ht

/-- Whatever has been made of a built program, each pass writes its own annotations alone, done
or failed, and no pass sets a mark that is clear. -/
theorem passes_annotate_apart (steps : List BuildStep) (edits : List Edit) :
    ∃ p, edits.foldlM edit? (build steps) = some p ∧
      (∀ x : Pass, ∃ q, (x.run p).program? = some q ∧ p.AnnotatedBy x.part q) ∧
      ∀ xs : List Pass, ∃ q, p.after? xs = some q ∧ p.Cleared q := by
  obtain ⟨p, hp, hpa⟩ := (build_wellFormed steps).toArranged.edits_eq_some edits
  exact ⟨p, hp, hpa.annotatedBy_run, hpa.after?_cleared⟩

end Program

end ConstraintRules
