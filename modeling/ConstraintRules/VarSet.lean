import ConstraintRules.Ident

/-! Sets of variables, written as strictly ascending lists, so that equal sets are
equal lists. -/

namespace ConstraintRules.VarSet

def insert (v : VarId) : List VarId → List VarId
  | [] => [v]
  | w :: ws =>
    if v.index < w.index then v :: w :: ws
    else if v.index = w.index then w :: ws
    else w :: insert v ws

theorem mem_insert {v x : VarId} {ws : List VarId} : x ∈ insert v ws ↔ x = v ∨ x ∈ ws := by
  induction ws with
  | nil => simp [insert]
  | cons w ws ih =>
    rw [insert]
    split
    · simp
    · split
      · rename_i h
        have hvw : v = w := by cases v; cases w; simp_all
        simp [hvw]
      · simp only [List.mem_cons, ih]
        exact ⟨fun h => by rcases h with h | h | h <;> simp [h],
          fun h => by rcases h with h | h | h <;> simp [h]⟩

def Ascending (ws : List VarId) : Prop := ws.Pairwise fun v w => v.index < w.index

theorem ascending_insert {v : VarId} {ws : List VarId} (h : Ascending ws) :
    Ascending (insert v ws) := by
  induction ws with
  | nil => simp [insert, Ascending]
  | cons w ws ih =>
    obtain ⟨hw, hws⟩ := List.pairwise_cons.mp h
    rw [insert]
    split
    · rename_i hv
      refine List.pairwise_cons.mpr ⟨fun x hx => ?_, h⟩
      rcases List.mem_cons.mp hx with rfl | hx
      · exact hv
      · exact Nat.lt_trans hv (hw x hx)
    · split
      · exact h
      · refine List.pairwise_cons.mpr ⟨fun x hx => ?_, ih hws⟩
        rcases mem_insert.mp hx with rfl | hx
        · omega
        · exact hw x hx

/-- The variables of a list in ascending order, each once. -/
def ofList (vs : List VarId) : List VarId := vs.foldr insert []

theorem mem_ofList {x : VarId} {vs : List VarId} : x ∈ ofList vs ↔ x ∈ vs := by
  induction vs with
  | nil => simp [ofList]
  | cons v vs ih =>
    rw [ofList, List.foldr_cons, mem_insert, List.mem_cons]
    exact or_congr Iff.rfl ih

theorem ascending_ofList (vs : List VarId) : Ascending (ofList vs) := by
  induction vs with
  | nil => exact List.Pairwise.nil
  | cons v vs ih => exact ascending_insert ih

end ConstraintRules.VarSet
