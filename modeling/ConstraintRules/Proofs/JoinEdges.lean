import ConstraintRules.Join.Graph
import Mathlib.Data.List.Perm.Basic

/-! The edges of a join graph. Two places are joined exactly if they share a
variable or a condition mentions both. -/

namespace ConstraintRules

theorem VarSet.Ascending.ext {vs ws : List VarId} (hv : VarSet.Ascending vs)
    (hw : VarSet.Ascending ws) (h : ∀ x, x ∈ vs ↔ x ∈ ws) : vs = ws := by
  have hirrefl : ∀ {us : List VarId}, VarSet.Ascending us → us.Nodup := fun hus =>
    hus.imp fun hlt he => absurd (congrArg VarId.index he) (Nat.ne_of_lt hlt)
  have hperm : vs.Perm ws := (List.perm_ext_iff_of_nodup (hirrefl hv) (hirrefl hw)).mpr h
  exact hperm.eq_of_pairwise (fun a b _ _ hab hba => absurd hba (Nat.lt_asymm hab)) hv hw

namespace JoinGraph

variable {places conditions : List (List VarId)} {a b : List VarId} {i j : Nat}

theorem touches_iff {c a : List VarId} : touches c a = true ↔ ∃ v ∈ c, v ∈ a := by
  simp [touches]

theorem mem_sharedVars {v : VarId} : v ∈ sharedVars conditions a b ↔
    (v ∈ a ∧ v ∈ b) ∨ ∃ c ∈ conditions, (∃ w ∈ c, w ∈ a) ∧ (∃ w ∈ c, w ∈ b) ∧ v ∈ c ∧
      (v ∈ a ∨ v ∈ b) := by
  simp only [sharedVars, VarSet.mem_ofList, List.mem_append, List.mem_filter, List.mem_flatMap,
    decide_eq_true_eq, Bool.and_eq_true, touches_iff, and_assoc]

theorem sharedVars_comm (conditions : List (List VarId)) (a b : List VarId) :
    sharedVars conditions a b = sharedVars conditions b a := by
  refine (VarSet.ascending_ofList _).ext (VarSet.ascending_ofList _) fun v => ?_
  change v ∈ sharedVars conditions a b ↔ v ∈ sharedVars conditions b a
  have hcondition : ∀ c : List VarId,
      ((∃ w ∈ c, w ∈ a) ∧ (∃ w ∈ c, w ∈ b) ∧ v ∈ c ∧ (v ∈ a ∨ v ∈ b)) ↔
      (∃ w ∈ c, w ∈ b) ∧ (∃ w ∈ c, w ∈ a) ∧ v ∈ c ∧ (v ∈ b ∨ v ∈ a) := fun c => by
    rw [and_left_comm, or_comm]
  rw [mem_sharedVars, mem_sharedVars, and_comm]
  simp only [hcondition]

/-- Two places share a variable, or a condition mentions variables of both. -/
def Tied (conditions : List (List VarId)) (a b : List VarId) : Prop :=
  (∃ v ∈ a, v ∈ b) ∨ ∃ c ∈ conditions, (∃ v ∈ c, v ∈ a) ∧ ∃ v ∈ c, v ∈ b

theorem Tied.symm (h : Tied conditions a b) : Tied conditions b a := by
  rcases h with ⟨v, ha, hb⟩ | ⟨c, hc, ha, hb⟩
  · exact Or.inl ⟨v, hb, ha⟩
  · exact Or.inr ⟨c, hc, hb, ha⟩

theorem sharedVars_ne_nil : sharedVars conditions a b ≠ [] ↔ Tied conditions a b := by
  constructor
  · intro hne
    obtain ⟨v, hv⟩ := List.exists_mem_of_ne_nil _ hne
    rcases mem_sharedVars.mp hv with ⟨ha, hb⟩ | ⟨c, hc, ha, hb, _⟩
    · exact Or.inl ⟨v, ha, hb⟩
    · exact Or.inr ⟨c, hc, ha, hb⟩
  · rintro (⟨v, ha, hb⟩ | ⟨c, hc, ⟨v, hv, ha⟩, hb⟩)
    · exact List.ne_nil_of_mem (mem_sharedVars.mpr (Or.inl ⟨ha, hb⟩))
    · exact List.ne_nil_of_mem (mem_sharedVars.mpr (Or.inr ⟨c, hc, ⟨v, hv, ha⟩, hb, hv, Or.inl ha⟩))

theorem mem_pairs {α : Type} {xs : List α} {x y : α} :
    (x, y) ∈ pairs xs ↔ ∃ i j : Nat, i < j ∧ xs[i]? = some x ∧ xs[j]? = some y := by
  induction xs with
  | nil => simp [pairs]
  | cons z xs ih =>
    rw [pairs, List.mem_append, ih]
    constructor
    · rintro (h | ⟨i, j, hij, hi, hj⟩)
      · obtain ⟨w, hw, he⟩ := List.mem_map.mp h
        cases he
        obtain ⟨j, hj⟩ := List.mem_iff_getElem?.mp hw
        exact ⟨0, j + 1, Nat.succ_pos j, rfl, hj⟩
      · exact ⟨i + 1, j + 1, Nat.succ_lt_succ hij, hi, hj⟩
    · rintro ⟨i, j, hij, hi, hj⟩
      cases j with
      | zero => omega
      | succ j =>
        rw [List.getElem?_cons_succ] at hj
        cases i with
        | zero =>
          rw [List.getElem?_cons_zero] at hi
          cases hi
          exact Or.inl (List.mem_map_of_mem (List.mem_of_getElem? hj))
        | succ i => exact Or.inr ⟨i, j, Nat.lt_of_succ_lt_succ hij, hi, hj⟩

theorem mem_labelSets {s : List VarId} : s ∈ labelSets places conditions ↔
    s ≠ [] ∧ ∃ (i j : Nat) (a b : List VarId), i < j ∧ places[i]? = some a ∧ places[j]? = some b ∧
      sharedVars conditions a b = s := by
  simp only [labelSets, List.mem_eraseDups, List.mem_filter, List.mem_map, Prod.exists, mem_pairs]
  constructor
  · rintro ⟨⟨a, b, ⟨i, j, hij, hi, hj⟩, he⟩, hne⟩
    exact ⟨by simpa using hne, i, j, a, b, hij, hi, hj, he⟩
  · rintro ⟨hne, i, j, a, b, hij, hi, hj, he⟩
    exact ⟨⟨a, b, ⟨i, j, hij, hi, hj⟩, he⟩, by simpa using hne⟩

theorem sharedVars_mem_labelSets (hij : i ≠ j) (hi : places[i]? = some a)
    (hj : places[j]? = some b) :
    sharedVars conditions a b ∈ labelSets places conditions ↔ sharedVars conditions a b ≠ [] := by
  constructor
  · exact fun hmem => (mem_labelSets.mp hmem).1
  · intro hne
    rcases Nat.lt_or_gt_of_ne hij with hlt | hgt
    · exact mem_labelSets.mpr ⟨hne, i, j, a, b, hlt, hi, hj, rfl⟩
    · exact mem_labelSets.mpr ⟨hne, j, i, b, a, hgt, hj, hi, sharedVars_comm conditions b a⟩

theorem edge?_ofPlaces (hi : places[i]? = some a) (hj : places[j]? = some b) :
    (ofPlaces places conditions).edge? i j = if i = j then none
      else ((labelSets places conditions).idxOf? (sharedVars conditions a b)).map LabelId.mk := by
  simp [edge?, ofPlaces, hi, hj, List.getElem?_zipIdx]

theorem exists_of_edge?_ofPlaces {l : LabelId}
    (h : (ofPlaces places conditions).edge? i j = some l) :
    ∃ a b, places[i]? = some a ∧ places[j]? = some b := by
  cases hi : places[i]? with
  | none => simp [edge?, ofPlaces, List.getElem?_zipIdx, hi] at h
  | some a =>
    cases hj : places[j]? with
    | none => simp [edge?, ofPlaces, List.getElem?_zipIdx, hi, hj] at h
    | some b => exact ⟨a, b, rfl, rfl⟩

theorem joined_ofPlaces : (ofPlaces places conditions).joined i j = true ↔
    i ≠ j ∧ ∃ a b, places[i]? = some a ∧ places[j]? = some b ∧ Tied conditions a b := by
  have hedge : ∀ {a b}, i ≠ j → places[i]? = some a → places[j]? = some b →
      ((ofPlaces places conditions).joined i j = true ↔ Tied conditions a b) := by
    intro a b hij hi hj
    rw [joined, edge?_ofPlaces hi hj, if_neg hij, Option.isSome_map, List.isSome_idxOf?,
      sharedVars_mem_labelSets hij hi hj, sharedVars_ne_nil]
  constructor
  · intro h
    obtain ⟨l, hl⟩ := Option.isSome_iff_exists.mp h
    obtain ⟨a, b, hi, hj⟩ := exists_of_edge?_ofPlaces hl
    have hij : i ≠ j := by
      intro he
      rw [edge?_ofPlaces hi hj, if_pos he] at hl
      cases hl
    exact ⟨hij, a, b, hi, hj, (hedge hij hi hj).mp h⟩
  · rintro ⟨hij, a, b, hi, hj, htied⟩
    exact (hedge hij hi hj).mpr htied

end JoinGraph

end ConstraintRules
