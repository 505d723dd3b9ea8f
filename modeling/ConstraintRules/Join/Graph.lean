import ConstraintRules.VarSet

/-! Join graphs. Places of a head are joined by the variables that they share or
that one condition compares. -/

namespace ConstraintRules

structure JoinGraph where
  size : Nat
  /-- The variable set of each label. -/
  labels : List (List VarId)
  /-- The label of each ordered pair of places. -/
  rows : List (List (Option LabelId))
deriving DecidableEq

namespace JoinGraph

/-- Whether a condition mentions a variable of a place. -/
def touches (condition place : List VarId) : Bool := condition.any fun v => decide (v ∈ place)

/-- The variables on which two places are joined: those in both, and for each condition that touches
both, those of its variables that are in one of them. -/
def sharedVars (conditions : List (List VarId)) (a b : List VarId) : List VarId :=
  let common := a.filter fun v => decide (v ∈ b)
  let straddling := conditions.filter fun c => touches c a && touches c b
  VarSet.ofList (common ++ straddling.flatMap fun c => c.filter fun v => decide (v ∈ a ∨ v ∈ b))

/-- The pairs of an earlier and a later member of a list. -/
def pairs {α : Type} : List α → List (α × α)
  | [] => []
  | a :: rest => rest.map (a, ·) ++ pairs rest

def labelSets (places conditions : List (List VarId)) : List (List VarId) :=
  (((pairs places).map fun ab => sharedVars conditions ab.1 ab.2).filter fun s =>
    !s.isEmpty).eraseDups

/-- The join graph of places with the given variables under the given conditions. -/
def ofPlaces (places conditions : List (List VarId)) : JoinGraph :=
  let labels := labelSets places conditions
  let row (a : List VarId × Nat) : List (Option LabelId) :=
    places.zipIdx.map fun b =>
      if a.2 = b.2 then none
      else (labels.idxOf? (sharedVars conditions a.1 b.1)).map LabelId.mk
  { size := places.length, labels, rows := places.zipIdx.map row }

def edge? (g : JoinGraph) (i j : Nat) : Option LabelId := do
  let row ← g.rows[i]?
  let edge ← row[j]?
  edge

def joined (g : JoinGraph) (i j : Nat) : Bool := (g.edge? i j).isSome

def places (g : JoinGraph) : List Nat := List.range g.size

def neighbours (g : JoinGraph) (i : Nat) : List Nat := g.places.filter (g.joined i)

/-- The places that a walk has not marked. -/
def unmarked (g : JoinGraph) (marked : List Nat) : List Nat :=
  g.places.filter fun i => decide (i ∉ marked)

theorem mem_neighbours {g : JoinGraph} {i j : Nat} :
    j ∈ g.neighbours i ↔ j < g.size ∧ g.joined i j = true := by
  simp [neighbours, places]

theorem mem_unmarked {g : JoinGraph} {marked : List Nat} {i : Nat} :
    i ∈ g.unmarked marked ↔ i < g.size ∧ i ∉ marked := by
  simp [unmarked, places]

theorem length_unmarked_cons {g : JoinGraph} {marked : List Nat} {j : Nat} (hj : j < g.size)
    (hmarked : j ∉ marked) : (g.unmarked (j :: marked)).length < (g.unmarked marked).length := by
  have hfilter : g.unmarked (j :: marked) = (g.unmarked marked).filter fun i => decide (i ≠ j) := by
    simp [unmarked]
  rw [hfilter, List.length_filter_lt_length_iff_exists]
  exact ⟨j, mem_unmarked.mpr ⟨hj, hmarked⟩, by simp⟩

def label? (g : JoinGraph) (l : LabelId) : Option (List VarId) := g.labels[l.index]?

end JoinGraph

end ConstraintRules
