/-! Reachability in a finite directed graph, given as the list of its edges. Every
node is expanded once. -/

namespace ConstraintRules.Reach

variable {α : Type} [DecidableEq α]

def successors (edges : List (α × α)) (x : α) : List α :=
  (edges.filter fun e => decide (e.1 = x)).map Prod.snd

theorem mem_successors {edges : List (α × α)} {x y : α} :
    y ∈ successors edges x ↔ (x, y) ∈ edges := by
  simp [successors]

/-- The edges whose source has not been expanded. -/
def pending (edges : List (α × α)) (seen : List α) : List (α × α) :=
  edges.filter fun e => decide (e.1 ∉ seen)

theorem length_pending_cons (edges : List (α × α)) {seen : List α} {x : α} (h : x ∉ seen) :
    (pending edges (x :: seen)).length + (successors edges x).length =
      (pending edges seen).length := by
  induction edges with
  | nil => rfl
  | cons e edges ih =>
    simp [pending, successors] at ih ⊢
    by_cases hx : e.1 = x
    · subst hx
      simp [h] at ih ⊢
      omega
    · by_cases hs : e.1 ∈ seen <;> simp [hx, hs] at ih ⊢ <;> omega

def search (edges : List (α × α)) (stack seen : List α) : List α :=
  match stack with
  | [] => seen
  | x :: rest =>
    if x ∈ seen then search edges rest seen
    else search edges (successors edges x ++ rest) (x :: seen)
termination_by (pending edges seen).length + stack.length
decreasing_by
  · simp
  · have := length_pending_cons edges ‹x ∉ seen›
    simp only [List.length_append, List.length_cons]
    omega

theorem mem_search_of_mem {edges : List (α × α)} {stack seen : List α} {y : α}
    (h : y ∈ seen ∨ y ∈ stack) : y ∈ search edges stack seen := by
  fun_induction search edges stack seen with
  | case1 seen => simpa using h
  | case2 seen x rest hx ih =>
    apply ih
    rcases h with h | h
    · exact Or.inl h
    · rcases List.mem_cons.mp h with rfl | h
      · exact Or.inl hx
      · exact Or.inr h
  | case3 seen x rest hx ih =>
    apply ih
    rcases h with h | h
    · exact Or.inl (List.mem_cons_of_mem _ h)
    · rcases List.mem_cons.mp h with rfl | h
      · exact Or.inl List.mem_cons_self
      · exact Or.inr (List.mem_append_right _ h)

theorem search_induction {edges : List (α × α)} {stack seen : List α} {P : α → Prop}
    (hstack : ∀ x ∈ stack, P x) (hseen : ∀ x ∈ seen, P x)
    (hedge : ∀ x y, P x → (x, y) ∈ edges → P y) : ∀ x ∈ search edges stack seen, P x := by
  fun_induction search edges stack seen with
  | case1 seen => exact hseen
  | case2 seen x rest hx ih => exact ih (fun y hy => hstack y (List.mem_cons_of_mem _ hy)) hseen
  | case3 seen x rest hx ih =>
    have hPx := hstack x List.mem_cons_self
    apply ih
    · intro y hy
      rcases List.mem_append.mp hy with hy | hy
      · exact hedge x y hPx (mem_successors.mp hy)
      · exact hstack y (List.mem_cons_of_mem _ hy)
    · intro y hy
      rcases List.mem_cons.mp hy with rfl | hy
      · exact hPx
      · exact hseen y hy

/-- The search leaves no edge behind, if every edge out of a seen node leads to a node that is seen
or waits on the stack. -/
theorem search_closed {edges : List (α × α)} {stack seen : List α}
    (h : ∀ x ∈ seen, ∀ y, (x, y) ∈ edges → y ∈ seen ∨ y ∈ stack) :
    ∀ x ∈ search edges stack seen, ∀ y, (x, y) ∈ edges → y ∈ search edges stack seen := by
  fun_induction search edges stack seen with
  | case1 seen => simpa using h
  | case2 seen x rest hx ih =>
    apply ih
    intro a ha b hab
    rcases h a ha b hab with hb | hb
    · exact Or.inl hb
    · rcases List.mem_cons.mp hb with rfl | hb
      · exact Or.inl hx
      · exact Or.inr hb
  | case3 seen x rest hx ih =>
    apply ih
    intro a ha b hab
    rcases List.mem_cons.mp ha with rfl | ha
    · exact Or.inr (List.mem_append_left _ (mem_successors.mpr hab))
    · rcases h a ha b hab with hb | hb
      · exact Or.inl (List.mem_cons_of_mem _ hb)
      · rcases List.mem_cons.mp hb with rfl | hb
        · exact Or.inl List.mem_cons_self
        · exact Or.inr (List.mem_append_right _ hb)

theorem nodup_search {edges : List (α × α)} {stack seen : List α} (h : seen.Nodup) :
    (search edges stack seen).Nodup := by
  fun_induction search edges stack seen with
  | case1 seen => exact h
  | case2 seen x rest hx ih => exact ih h
  | case3 seen x rest hx ih => exact ih (List.nodup_cons.mpr ⟨hx, h⟩)

/-- The nodes at the end of a path of one or more edges from `x`, each once. -/
def reach (edges : List (α × α)) (x : α) : List α := search edges (successors edges x) []

theorem mem_reach {edges : List (α × α)} {x y : α} :
    y ∈ reach edges x ↔ Relation.TransGen (fun a b => (a, b) ∈ edges) x y := by
  constructor
  · apply search_induction (P := fun y => Relation.TransGen (fun a b => (a, b) ∈ edges) x y)
    · exact fun y hy => .single (mem_successors.mp hy)
    · simp
    · exact fun a b ha hab => .tail ha hab
  · intro h
    induction h with
    | single h => exact mem_search_of_mem (Or.inr (mem_successors.mpr h))
    | tail _ h ih => exact search_closed (by simp) _ ih _ h

theorem nodup_reach (edges : List (α × α)) (x : α) : (reach edges x).Nodup :=
  nodup_search List.nodup_nil

end ConstraintRules.Reach
