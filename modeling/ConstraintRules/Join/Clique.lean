import ConstraintRules.Join.Graph

/-! Maximal cliques of a join graph, label by label. The search branches on the
candidates that are not neighbours of a pivot. -/

namespace ConstraintRules

structure Clique where
  label : LabelId
  /-- The variables on which each pair of the clique is joined. -/
  joinVars : List VarId
  /-- The places, ascending. -/
  nodes : List Nat
deriving DecidableEq

namespace Clique

/-- A place with the most neighbours among the candidates. -/
def pivot (adj : Nat → Nat → Bool) (candidates excluded : List Nat) (first : Nat) : Nat :=
  let cover (u : Nat) : Nat := candidates.countP (adj u)
  (candidates ++ excluded).foldl (fun best u => if cover best < cover u then u else best) first

theorem length_erase_lt {v : Nat} {l : List Nat} (h : v ∈ l) : (l.erase v).length < l.length := by
  have hpos := List.length_pos_of_mem h
  rw [List.length_erase_of_mem h]
  omega

mutual

/-- The maximal cliques of two or more places that extend `clique` by candidates. -/
def extend (adj : Nat → Nat → Bool) (clique candidates excluded : List Nat) : List (List Nat) :=
  match candidates with
  | [] => if excluded.isEmpty && decide (2 ≤ clique.length) then [clique] else []
  | c :: cs =>
    let p := pivot adj (c :: cs) excluded c
    branch adj clique (c :: cs) excluded ((c :: cs).filter fun v => !adj p v)
termination_by (candidates.length, candidates.length + 1)
decreasing_by
  exact Prod.Lex.right _ (Nat.lt_succ_of_le (List.length_filter_le ..))

/-- Branches on one candidate after the other; a candidate that was tried becomes excluded. -/
def branch (adj : Nat → Nat → Bool) (clique candidates excluded todo : List Nat) :
    List (List Nat) :=
  match todo with
  | [] => []
  | v :: todo =>
    if v ∈ candidates then
      extend adj (v :: clique) ((candidates.erase v).filter (adj v)) (excluded.filter (adj v)) ++
        branch adj clique (candidates.erase v) (v :: excluded) todo
    else branch adj clique candidates excluded todo
termination_by (candidates.length, todo.length)
decreasing_by
  · have hlt := length_erase_lt ‹v ∈ candidates›
    exact Prod.Lex.left _ _ (Nat.lt_of_le_of_lt (List.length_filter_le ..) hlt)
  · exact Prod.Lex.left _ _ (length_erase_lt ‹v ∈ candidates›)
  · exact Prod.Lex.right _ (Nat.lt_succ_self _)

end

end Clique

namespace JoinGraph

/-- Whether two places are joined on exactly the variables of a label. -/
def joinedBy (g : JoinGraph) (l : LabelId) (i j : Nat) : Bool := decide (g.edge? i j = some l)

/-- The places of the maximal cliques of one label, in lexicographic order. -/
def cliquesOf (g : JoinGraph) (l : LabelId) : List (List Nat) :=
  let candidates := g.places.filter fun i => g.places.any (g.joinedBy l i)
  let found := Clique.extend (g.joinedBy l) [] candidates []
  (found.map fun clique => g.places.filter fun i => decide (i ∈ clique)).mergeSort
    fun is js => !js.lex is fun i j => decide (i < j)

/-- The maximal cliques of two or more places, ordered by label and then by places. -/
def maximalCliques (g : JoinGraph) : List Clique :=
  g.labels.zipIdx.flatMap fun vl =>
    (g.cliquesOf ⟨vl.2⟩).map fun nodes => { label := ⟨vl.2⟩, joinVars := vl.1, nodes }

end JoinGraph

end ConstraintRules
