import ConstraintRules.Join.Graph

/-! Acyclic join graphs. A walk marks places as it stacks them; a marked neighbour
other than the parent closes a cycle. -/

namespace ConstraintRules.JoinGraph

/-- A stacked place and the one from which it was reached. -/
structure Visit where
  place : Nat
  parent : Option Nat
deriving DecidableEq

/-- Marks and stacks the neighbours of a visited place, unless one of them has a mark already and
is not the parent. -/
def enter (v : Visit) : List Nat → List Visit → List Nat → Option (List Visit × List Nat)
  | [], stack, marked => some (stack, marked)
  | j :: js, stack, marked =>
    if some j = v.parent then enter v js stack marked
    else if j ∈ marked then none
    else enter v js (⟨j, some v.place⟩ :: stack) (j :: marked)

/-- Every place that is stacked has lost its place among the unmarked. -/
theorem length_enter {g : JoinGraph} {v : Visit} {js marked marked' : List Nat}
    {stack stack' : List Visit} (hjs : ∀ j ∈ js, j < g.size)
    (h : enter v js stack marked = some (stack', marked')) :
    (g.unmarked marked').length + stack'.length ≤ (g.unmarked marked).length + stack.length := by
  induction js generalizing stack marked with
  | nil =>
    cases h
    exact Nat.le_refl _
  | cons j js ih =>
    have hrest : ∀ j ∈ js, j < g.size := fun k hk => hjs k (List.mem_cons_of_mem j hk)
    rw [enter] at h
    by_cases hparent : some j = v.parent
    · rw [if_pos hparent] at h
      exact ih hrest h
    · by_cases hmarked : j ∈ marked
      · simp [hparent, hmarked] at h
      · rw [if_neg hparent, if_neg hmarked] at h
        have hlt := length_unmarked_cons (hjs j List.mem_cons_self) hmarked
        have hle := ih hrest h
        rw [List.length_cons] at hle
        omega

/-- Visits all that can be reached from the stack. The marks in the end,
or none if a cycle is met. -/
def walk (g : JoinGraph) (stack : List Visit) (marked : List Nat) : Option (List Nat) :=
  match stack with
  | [] => some marked
  | v :: rest =>
    match h : enter v (g.neighbours v.place) rest marked with
    | none => none
    | some (stack, marked) =>
      have := length_enter (fun _ hj => (mem_neighbours.mp hj).1) h
      g.walk stack marked
termination_by (g.unmarked marked).length + stack.length
decreasing_by
  rw [List.length_cons]
  omega

/-- Walks from one root after the other, unless it has a mark. Whether no cycle is met. -/
def walkAll (g : JoinGraph) : List Nat → List Nat → Bool
  | [], _ => true
  | root :: roots, marked =>
    if root ∈ marked then g.walkAll roots marked
    else
      match g.walk [⟨root, none⟩] (root :: marked) with
      | none => false
      | some marked => g.walkAll roots marked

def isAcyclic (g : JoinGraph) : Bool := decide (g.size ≤ 2) || g.walkAll g.places []

end ConstraintRules.JoinGraph
