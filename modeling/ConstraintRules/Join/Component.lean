import ConstraintRules.Join.Graph

/-! Components of a join graph, the independent parts of a join. Up to two places
are always one component. -/

namespace ConstraintRules.JoinGraph

def unseen (g : JoinGraph) (i : Nat) (seen : List Nat) : List Nat :=
  (g.neighbours i).filter fun j => decide (j ∉ seen)

theorem mem_unseen {g : JoinGraph} {i j : Nat} {seen : List Nat} :
    j ∈ g.unseen i seen ↔ j < g.size ∧ g.joined i j = true ∧ j ∉ seen := by
  simp [unseen, mem_neighbours, and_assoc]

theorem unseen_nodup (g : JoinGraph) (i : Nat) (seen : List Nat) : (g.unseen i seen).Nodup :=
  (List.nodup_range.filter _).filter _

theorem length_unmarked_append {g : JoinGraph} {js marked : List Nat} (hjs : js.Nodup)
    (hnew : ∀ j ∈ js, j < g.size ∧ j ∉ marked) :
    (g.unmarked (js ++ marked)).length + js.length ≤ (g.unmarked marked).length := by
  induction js with
  | nil => exact Nat.le_refl _
  | cons j js ih =>
    obtain ⟨hj, hjs⟩ := List.nodup_cons.mp hjs
    obtain ⟨hsize, hmarked⟩ := hnew j List.mem_cons_self
    have hlt := length_unmarked_cons hsize (mt List.mem_append.mp (not_or.mpr ⟨hj, hmarked⟩))
    have hle := ih hjs fun k hk => hnew k (List.mem_cons_of_mem j hk)
    rw [List.cons_append, List.length_cons]
    omega

/-- Adds to a component all that the stacked places lead to. The last list holds what is seen, in
this component or in an earlier one. -/
def gather (g : JoinGraph) (stack component seen : List Nat) : List Nat × List Nat :=
  match stack with
  | [] => (component, seen)
  | i :: rest =>
    let fresh := g.unseen i seen
    g.gather (fresh.reverse ++ rest) (component ++ fresh) (fresh ++ seen)
termination_by (g.unmarked seen).length + stack.length
decreasing_by
  have hle := length_unmarked_append (g.unseen_nodup i seen) fun j hj =>
    ⟨(mem_unseen.mp hj).1, (mem_unseen.mp hj).2.2⟩
  rw [List.length_append, List.length_reverse, List.length_cons]
  omega

/-- The components of the roots that have not been seen, each ascending. -/
def componentsFrom (g : JoinGraph) : List Nat → List Nat → List (List Nat)
  | [], _ => []
  | root :: roots, seen =>
    if root ∈ seen then g.componentsFrom roots seen
    else
      let found := g.gather [root] [root] (root :: seen)
      found.1.mergeSort :: g.componentsFrom roots found.2

/-- The components, each ascending, in the order of their smallest places. -/
def components (g : JoinGraph) : List (List Nat) :=
  if g.size = 0 then []
  else if g.size ≤ 2 then [g.places]
  else g.componentsFrom g.places []

def isConnected (g : JoinGraph) : Bool := decide (g.components.length ≤ 1)

end ConstraintRules.JoinGraph
