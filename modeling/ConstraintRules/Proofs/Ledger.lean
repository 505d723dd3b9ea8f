import ConstraintRules.Activation.Session
import Mathlib.Logic.Relation
import Mathlib.Data.List.Nodup

/-! What follows from told facts, said without search and without memory. The
store of facts answers by these consequences. -/

namespace ConstraintRules.Activation

namespace Fact

/-- The direct activations told by a fact. Foreign code may always trigger. -/
def edges : Fact → List (Node × Node)
  | .related .activates x y => [(x, y)]
  | .related _ _ _ => []
  | .triggering x => [(x, .trigger)]
  | .pessimistic x => [(x, .foreign), (.foreign, .trigger)]
  | .reactivated c => [(.trigger, .constraint c)]
  | .exported c => [(.foreign, .constraint c)]

def observations : Fact → List (Node × ConstraintId)
  | .related .observes (.constraint c) y => [(y, c)]
  | _ => []

def removals : Fact → List (Node × ConstraintId)
  | .related .removes x (.constraint c) => [(x, c)]
  | _ => []

theorem mem_observations {fact : Fact} {y : Node} {c : ConstraintId} :
    (y, c) ∈ fact.observations ↔ fact = .related .observes (.constraint c) y := by
  unfold observations
  split
  · simp [and_comm, eq_comm]
  · rename_i hno
    simp only [List.not_mem_nil, false_iff]
    exact hno c y

theorem mem_removals {fact : Fact} {x : Node} {c : ConstraintId} :
    (x, c) ∈ fact.removals ↔ fact = .related .removes x (.constraint c) := by
  unfold removals
  split
  · simp [eq_comm]
  · rename_i hno
    simp only [List.not_mem_nil, false_iff]
    exact hno x c

end Fact

structure Ledger where
  told : List Fact := []
  /-- The constraint that observes itself. -/
  assumed : Option ConstraintId := none

namespace Ledger

def edges (l : Ledger) : List (Node × Node) := l.told.flatMap Fact.edges

def observations (l : Ledger) : List (Node × ConstraintId) := l.told.flatMap Fact.observations

def removals (l : Ledger) : List (Node × ConstraintId) := l.told.flatMap Fact.removals

/-- A path of one or more told activations. -/
def Leads (l : Ledger) : Node → Node → Prop := Relation.TransGen fun x y => (x, y) ∈ l.edges

def Covers (l : Ledger) (x y : Node) : Prop := y = x ∨ l.Leads x y

def Observes (l : Ledger) (c : ConstraintId) (x : Node) : Prop :=
  (∃ y, l.Covers x y ∧ Fact.related .observes (.constraint c) y ∈ l.told) ∨
    (l.assumed = some c ∧ l.Covers x (.constraint c)) ∨
    (l.Leads x .trigger ∧ Fact.reactivated c ∈ l.told) ∨
    (l.Leads x .foreign ∧ (Fact.exported c ∈ l.told ∨ Fact.reactivated c ∈ l.told))

def Removes (l : Ledger) (x : Node) (c : ConstraintId) : Prop :=
  ∃ y, l.Covers x y ∧ Fact.related .removes y (.constraint c) ∈ l.told

def Holds (l : Ledger) : Query → Prop
  | .related .activates x y => l.Leads x y
  | .related .observes (.constraint c) x => l.Observes c x
  | .related .observes _ _ => False
  | .related .removes x (.constraint c) => l.Removes x c
  | .related .removes _ _ => False
  | .reactivates x c => Fact.reactivated c ∈ l.told ∧ l.Leads x .trigger

def tell (l : Ledger) (fact : Fact) : Ledger := { l with told := l.told ++ [fact] }

/-- The fact says something that has not been told. -/
def News (l : Ledger) (fact : Fact) : Prop :=
  (∃ e ∈ fact.edges, e ∉ l.edges) ∨ (∃ e ∈ fact.observations, e ∉ l.observations) ∨
    ∃ e ∈ fact.removals, e ∉ l.removals

theorem mem_observations {l : Ledger} {y : Node} {c : ConstraintId} :
    (y, c) ∈ l.observations ↔ Fact.related .observes (.constraint c) y ∈ l.told := by
  simp [observations, Fact.mem_observations]

theorem mem_removals {l : Ledger} {x : Node} {c : ConstraintId} :
    (x, c) ∈ l.removals ↔ Fact.related .removes x (.constraint c) ∈ l.told := by
  simp [removals, Fact.mem_removals]

variable {l l' : Ledger}

theorem Leads.mono (h : l.told ⊆ l'.told) {x y : Node} (hxy : l.Leads x y) : l'.Leads x y := by
  refine Relation.TransGen.mono (fun a b hab => ?_) x y hxy
  obtain ⟨fact, hfact, he⟩ := List.mem_flatMap.mp hab
  exact List.mem_flatMap.mpr ⟨fact, h hfact, he⟩

theorem Covers.mono (h : l.told ⊆ l'.told) {x y : Node} (hxy : l.Covers x y) : l'.Covers x y :=
  hxy.imp_right (Leads.mono h)

theorem Observes.mono (h : l.told ⊆ l'.told) (ha : l.assumed = l'.assumed) {c : ConstraintId}
    {x : Node} (hc : l.Observes c x) : l'.Observes c x := by
  rcases hc with ⟨y, hy, hfact⟩ | ⟨hself, hx⟩ | ⟨hx, hfact⟩ | ⟨hx, hfact⟩
  · exact Or.inl ⟨y, hy.mono h, h hfact⟩
  · exact Or.inr (Or.inl ⟨ha ▸ hself, hx.mono h⟩)
  · exact Or.inr (Or.inr (Or.inl ⟨hx.mono h, h hfact⟩))
  · exact Or.inr (Or.inr (Or.inr ⟨hx.mono h, hfact.imp (h ·) (h ·)⟩))

theorem Removes.mono (h : l.told ⊆ l'.told) {x : Node} {c : ConstraintId} (hc : l.Removes x c) :
    l'.Removes x c := by
  obtain ⟨y, hy, hfact⟩ := hc
  exact ⟨y, hy.mono h, h hfact⟩

theorem Holds.mono (h : l.told ⊆ l'.told) (ha : l.assumed = l'.assumed) {q : Query}
    (hq : l.Holds q) :
    l'.Holds q := by
  unfold Holds at hq ⊢
  split at hq
  · exact Leads.mono h hq
  · exact Observes.mono h ha hq
  · exact hq.elim
  · exact Removes.mono h hq
  · exact hq.elim
  · exact ⟨h hq.1, Leads.mono h hq.2⟩

theorem holds_congr (h : ∀ fact, fact ∈ l.told ↔ fact ∈ l'.told) (ha : l.assumed = l'.assumed)
    (q : Query) :
    l.Holds q ↔ l'.Holds q :=
  ⟨Holds.mono (fun fact => (h fact).mp) ha, Holds.mono (fun fact => (h fact).mpr) ha.symm⟩

end Ledger

section InsertNew

variable {α : Type} [DecidableEq α] {x y : α} {xs : List α}

theorem mem_insertNew : y ∈ (insertNew x xs).2 ↔ y ∈ xs ∨ y = x := by
  by_cases h : x ∈ xs
  · simp only [insertNew, h, if_true]
    exact ⟨Or.inl, fun hy => hy.elim id fun he => he ▸ h⟩
  · simp [insertNew, h]

theorem insertNew_fst : (insertNew x xs).1 = true ↔ x ∉ xs := by
  by_cases h : x ∈ xs <;> simp [insertNew, h]

theorem nodup_insertNew (h : xs.Nodup) : (insertNew x xs).2.Nodup := by
  by_cases hx : x ∈ xs
  · simpa [insertNew, hx] using h
  · simp only [insertNew, hx, if_false]
    exact h.append (List.nodup_singleton x) (by simpa using hx)

end InsertNew

namespace Facts

variable {f : Facts} {fact : Fact}

theorem mem_addEdge {e : Node × Node} {x y : Node} :
    e ∈ (f.addEdge x y).2.edges ↔ e ∈ f.edges ∨ e = (x, y) := mem_insertNew

theorem addEdge_fst {x y : Node} : (f.addEdge x y).1 = true ↔ (x, y) ∉ f.edges := insertNew_fst

theorem mem_tell_edges {e : Node × Node} :
    e ∈ (f.tell fact).2.edges ↔ e ∈ f.edges ∨ e ∈ fact.edges := by
  unfold tell
  split
  · simp [Fact.edges, mem_addEdge]
  · simp [Fact.edges, addObservation]
  · simp [Fact.edges]
  · simp [Fact.edges, addRemoval]
  · simp [Fact.edges]
  · simp [Fact.edges, mem_addEdge]
  · simp [Fact.edges, mem_addEdge, or_assoc]
  · simp [Fact.edges, mem_addEdge]
  · simp [Fact.edges, mem_addEdge]

theorem nodup_tell_edges (h : f.edges.Nodup) : (f.tell fact).2.edges.Nodup := by
  unfold tell
  split
  · exact nodup_insertNew h
  · exact h
  · exact h
  · exact h
  · exact h
  · exact nodup_insertNew h
  · exact nodup_insertNew (nodup_insertNew h)
  · exact nodup_insertNew h
  · exact nodup_insertNew h

theorem mem_tell_observations {e : Node × ConstraintId} :
    e ∈ (f.tell fact).2.observations ↔ e ∈ f.observations ∨ e ∈ fact.observations := by
  unfold tell
  split
  case h_2 => simp [addObservation, mem_insertNew, Fact.observations]
  case h_3 => simp_all [Fact.observations]
  all_goals simp [addEdge, addRemoval, Fact.observations]

theorem mem_tell_removals {e : Node × ConstraintId} :
    e ∈ (f.tell fact).2.removals ↔ e ∈ f.removals ∨ e ∈ fact.removals := by
  unfold tell
  split
  case h_4 => simp [addRemoval, mem_insertNew, Fact.removals]
  case h_5 => simp_all [Fact.removals]
  all_goals simp [addEdge, addObservation, Fact.removals]

theorem mem_tell_reactivated {c : ConstraintId} :
    c ∈ (f.tell fact).2.reactivated ↔ c ∈ f.reactivated ∨ fact = .reactivated c := by
  unfold tell
  split
  case h_8 => simp [addEdge, mem_insertNew, eq_comm]
  all_goals simp [addEdge, addObservation, addRemoval]

theorem mem_tell_exported {c : ConstraintId} :
    c ∈ (f.tell fact).2.exported ↔ c ∈ f.exported ∨ fact = .exported c := by
  unfold tell
  split
  case h_9 => simp [addEdge, mem_insertNew, eq_comm]
  all_goals simp [addEdge, addObservation, addRemoval]

theorem tell_assumption : (f.tell fact).2.assumption = f.assumption := by
  unfold tell
  split <;> rfl

theorem tell_fst : (f.tell fact).1 = true ↔
    (∃ e ∈ fact.edges, e ∉ f.edges) ∨ (∃ e ∈ fact.observations, e ∉ f.observations) ∨
      ∃ e ∈ fact.removals, e ∉ f.removals := by
  unfold tell
  split
  · simp [Fact.edges, Fact.observations, Fact.removals, addEdge_fst]
  · simp [Fact.edges, Fact.observations, Fact.removals, addObservation, insertNew_fst]
  · simp_all [Fact.edges, Fact.observations, Fact.removals]
  · simp [Fact.edges, Fact.observations, Fact.removals, addRemoval, insertNew_fst]
  · simp_all [Fact.edges, Fact.observations, Fact.removals]
  · simp [Fact.edges, Fact.observations, Fact.removals, addEdge_fst]
  · -- the trigger edge is added after the edge to foreign code, which is another one
    simp [Fact.edges, Fact.observations, Fact.removals, addEdge_fst, mem_addEdge]
  · simp [Fact.edges, Fact.observations, Fact.removals, addEdge_fst]
  · simp [Fact.edges, Fact.observations, Fact.removals, addEdge_fst]

/-- The store keeps what the ledger says, each edge once. -/
structure Reflects (f : Facts) (l : Ledger) : Prop where
  mem_edges : ∀ e, e ∈ f.edges ↔ e ∈ l.edges
  nodup_edges : f.edges.Nodup
  mem_observations : ∀ e, e ∈ f.observations ↔ e ∈ l.observations
  mem_removals : ∀ e, e ∈ f.removals ↔ e ∈ l.removals
  mem_reactivated : ∀ c, c ∈ f.reactivated ↔ Fact.reactivated c ∈ l.told
  mem_exported : ∀ c, c ∈ f.exported ↔ Fact.exported c ∈ l.told
  assumption_eq : f.assumption = l.assumed

namespace Reflects

variable {l : Ledger}

theorem empty : Reflects {} {} := by
  constructor <;> simp [Ledger.edges, Ledger.observations, Ledger.removals]

theorem tell (h : f.Reflects l) (fact : Fact) : (f.tell fact).2.Reflects (l.tell fact) where
  mem_edges e := by simp [mem_tell_edges, h.mem_edges, Ledger.edges, Ledger.tell]
  nodup_edges := nodup_tell_edges h.nodup_edges
  mem_observations e := by
    simp [mem_tell_observations, h.mem_observations, Ledger.observations, Ledger.tell]
  mem_removals e := by simp [mem_tell_removals, h.mem_removals, Ledger.removals, Ledger.tell]
  mem_reactivated c := by simp [mem_tell_reactivated, h.mem_reactivated, Ledger.tell, eq_comm]
  mem_exported c := by simp [mem_tell_exported, h.mem_exported, Ledger.tell, eq_comm]
  assumption_eq := tell_assumption.trans h.assumption_eq

theorem tell_fst (h : f.Reflects l) (fact : Fact) : (f.tell fact).1 = true ↔ l.News fact := by
  simp only [Facts.tell_fst, Ledger.News, h.mem_edges, h.mem_observations, h.mem_removals]

theorem assume (h : f.Reflects l) (c : Option ConstraintId) :
    Reflects { f with assumption := c } { l with assumed := c } where
  mem_edges := h.mem_edges
  nodup_edges := h.nodup_edges
  mem_observations := h.mem_observations
  mem_removals := h.mem_removals
  mem_reactivated := h.mem_reactivated
  mem_exported := h.mem_exported
  assumption_eq := rfl

theorem mem_reach (h : f.Reflects l) {x y : Node} : y ∈ f.reach x ↔ l.Leads x y := by
  have he : (fun a b => (a, b) ∈ f.edges) = fun a b => (a, b) ∈ l.edges :=
    funext fun a => funext fun b => propext (h.mem_edges (a, b))
  rw [reach, Reach.mem_reach, he]
  rfl

theorem mem_cons_reach (h : f.Reflects l) {x y : Node} : y ∈ x :: f.reach x ↔ l.Covers x y :=
  List.mem_cons.trans (or_congr Iff.rfl h.mem_reach)

theorem observesFrom_iff (h : f.Reflects l) {c : ConstraintId} {x : Node} :
    f.observesFrom (f.reach x) c x = true ↔ l.Observes c x := by
  have hdirect : (x :: f.reach x).any (f.observesDirectly c) = true ↔
      (∃ y, l.Covers x y ∧ Fact.related .observes (.constraint c) y ∈ l.told) ∨
        (l.assumed = some c ∧ l.Covers x (.constraint c)) := by
    simp only [List.any_eq_true, h.mem_cons_reach, observesDirectly, Bool.or_eq_true,
      Bool.and_eq_true,
      decide_eq_true_eq, h.mem_observations, Ledger.mem_observations, h.assumption_eq]
    constructor
    · rintro ⟨y, hy, hfact | ⟨hself, rfl⟩⟩
      · exact Or.inl ⟨y, hy, hfact⟩
      · exact Or.inr ⟨hself, hy⟩
    · rintro (⟨y, hy, hfact⟩ | ⟨hself, hy⟩)
      · exact ⟨y, hy, Or.inl hfact⟩
      · exact ⟨_, hy, Or.inr ⟨hself, rfl⟩⟩
  rw [observesFrom, Bool.or_eq_true, Bool.or_eq_true, hdirect]
  simp only [Bool.and_eq_true, decide_eq_true_eq, h.mem_reach, h.mem_reactivated, h.mem_exported,
    Ledger.Observes, or_assoc]

theorem removesFrom_iff (h : f.Reflects l) {x : Node} {c : ConstraintId} :
    f.removesFrom (f.reach x) x c = true ↔ l.Removes x c := by
  simp only [removesFrom, List.any_eq_true, h.mem_cons_reach, decide_eq_true_eq, h.mem_removals,
    Ledger.mem_removals, Ledger.Removes]

theorem holds_iff (h : f.Reflects l) (q : Query) : f.holds q = true ↔ l.Holds q := by
  unfold holds answer Ledger.Holds
  split
  · simp [h.mem_reach]
  · exact h.observesFrom_iff
  · simp
  · exact h.removesFrom_iff
  · simp
  · simp [h.mem_reach, h.mem_reactivated]

end Reflects

end Facts

namespace Session

theorem holds_eq (s : Session) (q : Query) : s.holds q = s.facts.holds q := by
  rw [holds, Facts.holds, funext s.reach_eq]

theorem tell_facts (s : Session) (fact : Fact) : (s.tell fact).2.facts = (s.facts.tell fact).2 := by
  dsimp only [tell]
  split <;> rfl

theorem tell_fst (s : Session) (fact : Fact) : (s.tell fact).1 = (s.facts.tell fact).1 := by
  dsimp only [tell]
  split <;> rfl

theorem rememberAll_facts (s : Session) (xs : List Node) : (s.rememberAll xs).facts = s.facts := by
  induction xs generalizing s with
  | nil => rfl
  | cons x xs ih => exact ih (s.remember x)

theorem foldl_tell_reflects {s : Session} {l : Ledger} (h : s.facts.Reflects l)
    (facts : List Fact) :
    (facts.foldl (fun s fact => (s.tell fact).2) s).facts.Reflects
      { l with told := l.told ++ facts } := by
  induction facts generalizing s l with
  | nil => simpa using h
  | cons fact facts ih =>
    have hs : (s.tell fact).2.facts.Reflects (l.tell fact) := by
      rw [tell_facts]
      exact h.tell fact
    simpa [Ledger.tell, List.append_assoc] using ih hs

theorem ofFacts_reflects (facts : List Fact) : (ofFacts facts).facts.Reflects { told := facts } :=
  foldl_tell_reflects (s := empty) Facts.Reflects.empty facts

theorem bodySees_iff {s : Session} {l : Ledger} (h : s.facts.Reflects l) (c : ConstraintId)
    (r : RuleId) :
    s.bodySees c r = true ↔ { l with assumed := some c }.Observes c (.body r) := by
  rw [bodySees, holds_eq]
  exact (h.assume (some c)).holds_iff (.related .observes (.constraint c) (.body r))

end Session

end ConstraintRules.Activation
