import ConstraintRules.Proofs.JoinEdges
import Mathlib.Data.List.Nodup

/-! The labels of a join graph: one for each set of shared variables, in the order
in which the pairs of places show them. -/

namespace ConstraintRules

/-- Wherever `y` stands in a list, `x` stands before it. -/
def AppearsBefore {α : Type} (xs : List α) (x y : α) : Prop :=
  ∀ before after, xs = before ++ y :: after → x ∈ before

theorem AppearsBefore.ne {α : Type} {xs : List α} {x y : α} (h : AppearsBefore xs x y)
    (hy : y ∈ xs) : x ≠ y := by
  rintro rfl
  obtain ⟨before, after, hxs, hnot⟩ := List.eq_append_cons_of_mem hy
  exact hnot (h before after hxs)

theorem AppearsBefore.of_filter {α : Type} {xs : List α} {x y : α} {p : α → Bool}
    (h : AppearsBefore (xs.filter p) x y) (hy : p y = true) : AppearsBefore xs x y := by
  intro before after hxs
  have hx := h (before.filter p) (after.filter p) (by simp [hxs, hy])
  exact List.mem_of_mem_filter hx

theorem AppearsBefore.cons {α : Type} {xs : List α} {x y a : α} (h : AppearsBefore xs x y)
    (hne : y ≠ a) :
    AppearsBefore (a :: xs) x y := by
  intro before after hxs
  cases before with
  | nil => simp_all
  | cons b before =>
    rw [List.cons_append, List.cons.injEq] at hxs
    exact List.mem_cons_of_mem _ (h before after hxs.2)

theorem appearsBefore_eraseDups {α : Type} [BEq α] [LawfulBEq α] (xs : List α) :
    xs.eraseDups.Pairwise (AppearsBefore xs) := by
  match xs with
  | [] => simp
  | a :: xs =>
    have hne : ∀ y ∈ (xs.filter fun b => !b == a).eraseDups, y ≠ a := by
      intro y hy
      simpa using (List.mem_filter.mp (List.mem_eraseDups.mp hy)).2
    rw [List.eraseDups_cons, List.pairwise_cons]
    constructor
    · intro y hy before after hxs
      have hy := hne y hy
      cases before with
      | nil => simp_all
      | cons b before => simp_all
    · refine (appearsBefore_eraseDups (xs.filter fun b => !b == a)).imp_of_mem fun _ hy h => ?_
      exact (h.of_filter (by simpa using hne _ hy)).cons (hne _ hy)
termination_by xs.length
decreasing_by exact Nat.lt_succ_of_le (List.length_filter_le _ _)

theorem nodup_eraseDups {α : Type} [BEq α] [LawfulBEq α] (xs : List α) : xs.eraseDups.Nodup :=
  (appearsBefore_eraseDups xs).imp_of_mem fun _ hy h => h.ne (List.mem_eraseDups.mp hy)

theorem zipIdx_pairwise {α : Type} (xs : List α) : xs.zipIdx.Pairwise fun p q => p.2 < q.2 := by
  apply List.pairwise_map.mp
  rw [List.zipIdx_map_snd]
  exact List.pairwise_lt_range'

namespace JoinGraph

variable {places conditions : List (List VarId)} {i j : Nat} {l : LabelId}

theorem pairs_map {α β : Type} (f : α → β) (xs : List α) :
    pairs (xs.map f) = (pairs xs).map (Prod.map f f) := by
  induction xs with
  | nil => rfl
  | cons x xs ih => simp [pairs, ih]

theorem pairs_pairwise {α : Type} {R : α → α → Prop} {xs : List α} (h : xs.Pairwise R) :
    (pairs xs).Pairwise fun p q => R p.1 q.1 ∨ p.1 = q.1 ∧ R p.2 q.2 := by
  induction xs with
  | nil => exact .nil
  | cons x xs ih =>
    obtain ⟨hx, hxs⟩ := List.pairwise_cons.mp h
    rw [pairs, List.pairwise_append]
    refine ⟨?_, ih hxs, ?_⟩
    · rw [List.pairwise_map]
      exact hxs.imp fun hR => Or.inr ⟨rfl, hR⟩
    · intro p hp q hq
      obtain ⟨y, _, rfl⟩ := List.mem_map.mp hp
      obtain ⟨k, _, _, hk, _⟩ := mem_pairs.mp hq
      exact Or.inl (hx _ (List.mem_of_getElem? hk))

theorem label?_ofPlaces :
    (ofPlaces places conditions).label? l = (labelSets places conditions)[l.index]? :=
  rfl

theorem nodup_labelSets (places conditions : List (List VarId)) :
    (labelSets places conditions).Nodup :=
  nodup_eraseDups _

theorem idxOf?_labelSets {s : List VarId} :
    ((labelSets places conditions).idxOf? s).map LabelId.mk = some l ↔
      (labelSets places conditions)[l.index]? = some s := by
  rw [Option.map_eq_some_iff, List.getElem?_eq_some_iff]
  constructor
  · rintro ⟨k, hk, rfl⟩
    obtain ⟨hlt, hs, _⟩ := List.idxOf?_eq_some_iff.mp hk
    exact ⟨hlt, hs⟩
  · rintro ⟨hlt, hs⟩
    refine ⟨l.index, List.idxOf?_eq_some_iff.mpr ⟨hlt, hs, fun k hk he => ?_⟩, rfl⟩
    have := (nodup_labelSets places conditions).getElem_inj_iff.mp (he.trans hs.symm)
    omega

theorem edge?_eq_some_iff : (ofPlaces places conditions).edge? i j = some l ↔ i ≠ j ∧ ∃ a b,
    places[i]? = some a ∧ places[j]? = some b ∧
      (ofPlaces places conditions).label? l = some (sharedVars conditions a b) := by
  rw [label?_ofPlaces]
  constructor
  · intro h
    obtain ⟨a, b, hi, hj⟩ := exists_of_edge?_ofPlaces h
    rw [edge?_ofPlaces hi hj] at h
    split at h
    · cases h
    · exact ⟨‹_›, a, b, hi, hj, idxOf?_labelSets.mp h⟩
  · rintro ⟨hij, a, b, hi, hj, hl⟩
    rw [edge?_ofPlaces hi hj, if_neg hij]
    exact idxOf?_labelSets.mpr hl

theorem edge?_comm (places conditions : List (List VarId)) (i j : Nat) :
    (ofPlaces places conditions).edge? i j = (ofPlaces places conditions).edge? j i := by
  have hswap : ∀ {i j l}, (ofPlaces places conditions).edge? i j = some l →
      (ofPlaces places conditions).edge? j i = some l := by
    intro i j l h
    obtain ⟨hij, a, b, hi, hj, hl⟩ := edge?_eq_some_iff.mp h
    rw [sharedVars_comm] at hl
    exact edge?_eq_some_iff.mpr ⟨hij.symm, b, a, hj, hi, hl⟩
  exact Option.ext fun l => ⟨hswap, hswap⟩

theorem eq_of_label?_eq {l' : LabelId} {s : List VarId}
    (h : (ofPlaces places conditions).label? l = some s)
    (h' : (ofPlaces places conditions).label? l' = some s) : l = l' := by
  have hidx : some l = some l' := (idxOf?_labelSets.mpr h).symm.trans (idxOf?_labelSets.mpr h')
  exact Option.some.inj hidx

theorem exists_edge?_of_label? {s : List VarId}
    (h : (ofPlaces places conditions).label? l = some s) :
    ∃ i j, (ofPlaces places conditions).edge? i j = some l := by
  obtain ⟨_, i, j, a, b, hij, hi, hj, rfl⟩ := mem_labelSets.mp (List.mem_of_getElem? h)
  exact ⟨i, j, edge?_eq_some_iff.mpr ⟨Nat.ne_of_lt hij, a, b, hi, hj, h⟩⟩

theorem labelSets_pairwise (places conditions : List (List VarId)) :
    (labelSets places conditions).Pairwise
    (AppearsBefore ((pairs places.zipIdx).map fun p => sharedVars conditions p.1.1 p.2.1)) := by
  have hpairs : ((pairs places).map fun p => sharedVars conditions p.1 p.2) =
      (pairs places.zipIdx).map fun p => sharedVars conditions p.1.1 p.2.1 := by
    conv_lhs => rw [← List.zipIdx_map_fst 0 places, pairs_map, List.map_map]
    rfl
  rw [← hpairs]
  refine (appearsBefore_eraseDups _).imp_of_mem fun _ hy h => ?_
  exact h.of_filter (List.mem_filter.mp (List.mem_eraseDups.mp hy)).2

theorem mem_pairs_zipIdx {p q : List VarId × Nat} : (p, q) ∈ pairs places.zipIdx ↔
    p.2 < q.2 ∧ places[p.2]? = some p.1 ∧ places[q.2]? = some q.1 := by
  rw [mem_pairs]
  simp only [List.getElem?_zipIdx, Option.map_eq_some_iff]
  constructor
  · rintro ⟨i, j, hij, ⟨a, ha, rfl⟩, b, hb, rfl⟩
    simpa using ⟨hij, ha, hb⟩
  · rintro ⟨hlt, hp, hq⟩
    exact ⟨p.2, q.2, hlt, ⟨p.1, hp, by simp⟩, q.1, hq, by simp⟩

theorem pairs_zipIdx_pairwise (places : List (List VarId)) :
    (pairs places.zipIdx).Pairwise fun p q => p.1.2 < q.1.2 ∨ p.1 = q.1 ∧ p.2.2 < q.2.2 :=
  pairs_pairwise (zipIdx_pairwise places)

theorem exists_edge?_earlier {l' : LabelId} (hl : l.index < l'.index) (hij : i < j)
    (h : (ofPlaces places conditions).edge? i j = some l') :
    ∃ m n, m < n ∧ (m < i ∨ m = i ∧ n < j) ∧
      (ofPlaces places conditions).edge? m n = some l := by
  obtain ⟨_, a, b, hi, hj, hlabel⟩ := edge?_eq_some_iff.mp h
  rw [label?_ofPlaces] at hlabel
  obtain ⟨hlt, hset⟩ := List.getElem?_eq_some_iff.mp hlabel
  have hpair : ((a, i), (b, j)) ∈ pairs places.zipIdx := mem_pairs_zipIdx.mpr ⟨hij, hi, hj⟩
  obtain ⟨before, after, hsplit⟩ := List.append_of_mem hpair
  -- a pair that stands before this one has shown the smaller label
  have hbefore :=
    List.pairwise_iff_getElem.mp (labelSets_pairwise places conditions) _ _ (by omega) hlt hl
  have hmem :=
    hbefore (before.map _) (after.map _) (by rw [hsplit, List.map_append, List.map_cons, hset])
  obtain ⟨⟨p, q⟩, hpq, hshared⟩ := List.mem_map.mp hmem
  have hin : (p, q) ∈ pairs places.zipIdx := by
    rw [hsplit]
    exact List.mem_append_left _ hpq
  obtain ⟨hlt', hp, hq⟩ := mem_pairs_zipIdx.mp hin
  have hsorted := pairs_zipIdx_pairwise places
  rw [hsplit, List.pairwise_append] at hsorted
  have hearlier := hsorted.2.2 _ hpq _ List.mem_cons_self
  refine ⟨p.2, q.2, hlt', hearlier.imp_right fun he => ⟨congrArg Prod.snd he.1, he.2⟩, ?_⟩
  refine edge?_eq_some_iff.mpr ⟨Nat.ne_of_lt hlt', _, _, hp, hq, ?_⟩
  rw [label?_ofPlaces, hshared, List.getElem?_eq_getElem]

/-- The variables on which two places are joined: those of both, and for each condition that
mentions variables of both, those of its variables that one of them has. -/
def JoinVar (places conditions : List (List VarId)) (i j : Nat) (v : VarId) : Prop :=
  ∃ a b, places[i]? = some a ∧ places[j]? = some b ∧ ((v ∈ a ∧ v ∈ b) ∨
    ∃ c ∈ conditions, (∃ w ∈ c, w ∈ a) ∧ (∃ w ∈ c, w ∈ b) ∧ v ∈ c ∧ (v ∈ a ∨ v ∈ b))

theorem joinVar_iff {a b : List VarId} (hi : places[i]? = some a) (hj : places[j]? = some b)
    {v : VarId} :
    JoinVar places conditions i j v ↔ v ∈ sharedVars conditions a b := by
  rw [mem_sharedVars]
  constructor
  · rintro ⟨a', b', hi', hj', hv⟩
    cases hi.symm.trans hi'
    cases hj.symm.trans hj'
    exact hv
  · exact fun hv => ⟨a, b, hi, hj, hv⟩

theorem edge?_eq_none_iff (hij : i ≠ j) (hi : i < places.length) (hj : j < places.length) :
    (ofPlaces places conditions).edge? i j = none ↔ ∀ v, ¬JoinVar places conditions i j v := by
  have ha := List.getElem?_eq_getElem hi
  have hb := List.getElem?_eq_getElem hj
  rw [edge?_ofPlaces ha hb, if_neg hij, Option.map_eq_none_iff, List.idxOf?_eq_none_iff,
    sharedVars_mem_labelSets hij ha hb, ne_eq, not_not, List.eq_nil_iff_forall_not_mem]
  simp only [joinVar_iff ha hb]

theorem label?_of_edge? (h : (ofPlaces places conditions).edge? i j = some l) :
    ∃ vs, (ofPlaces places conditions).label? l = some vs ∧ VarSet.Ascending vs ∧
      ∀ v, v ∈ vs ↔ JoinVar places conditions i j v := by
  obtain ⟨_, a, b, hi, hj, hl⟩ := edge?_eq_some_iff.mp h
  exact ⟨_, hl, VarSet.ascending_ofList _, fun v => (joinVar_iff hi hj).symm⟩

theorem edge?_label_eq_iff {i' j' : Nat} {l' : LabelId}
    (h : (ofPlaces places conditions).edge? i j = some l)
    (h' : (ofPlaces places conditions).edge? i' j' = some l') :
    l = l' ↔ ∀ v, JoinVar places conditions i j v ↔ JoinVar places conditions i' j' v := by
  obtain ⟨vs, hvs, hasc, hmem⟩ := label?_of_edge? h
  obtain ⟨ws, hws, hasc', hmem'⟩ := label?_of_edge? h'
  constructor
  · rintro rfl v
    cases hvs.symm.trans hws
    rw [← hmem, ← hmem']
  · intro hsame
    obtain rfl : vs = ws := hasc.ext hasc' fun v => by rw [hmem, hmem', hsame]
    exact eq_of_label?_eq hvs hws

/-- A graph shows on which variables the places are joined. -/
structure Portrays (g : JoinGraph) (places conditions : List (List VarId)) : Prop where
  size_eq : g.size = places.length
  no_edge : ∀ i j, i = j ∨ g.size ≤ i ∨ g.size ≤ j → g.edge? i j = none
  undirected : ∀ i j, g.edge? i j = g.edge? j i
  no_edge_iff : ∀ i j, i ≠ j → i < g.size → j < g.size →
    (g.edge? i j = none ↔ ∀ v, ¬JoinVar places conditions i j v)
  label : ∀ i j l, g.edge? i j = some l → ∃ vs, g.label? l = some vs ∧ VarSet.Ascending vs ∧
    ∀ v, v ∈ vs ↔ JoinVar places conditions i j v
  same_label : ∀ i j l i' j' l', g.edge? i j = some l → g.edge? i' j' = some l' →
    (l = l' ↔ ∀ v, JoinVar places conditions i j v ↔ JoinVar places conditions i' j' v)
  nodup_labels : g.labels.Nodup
  dense : ∀ l : LabelId, l.index < g.labels.length ↔ ∃ i j, g.edge? i j = some l
  /-- The first pair that shows a label comes before the first that shows a
  label with a greater number. -/
  first_shown : ∀ l l' : LabelId, l.index < l'.index → ∀ i j, i < j → g.edge? i j = some l' →
    ∃ m n, m < n ∧ (m < i ∨ m = i ∧ n < j) ∧ g.edge? m n = some l

/-- The join graph of places and conditions is exact. -/
theorem ofPlaces_portrays (places conditions : List (List VarId)) :
    (ofPlaces places conditions).Portrays places conditions where
  size_eq := rfl
  no_edge i j h := by
    rw [Option.eq_none_iff_forall_not_mem]
    intro l hl
    obtain ⟨hij, a, b, hi, hj, _⟩ := edge?_eq_some_iff.mp hl
    have hilt := (List.getElem?_eq_some_iff.mp hi).1
    have hjlt := (List.getElem?_eq_some_iff.mp hj).1
    simp only [ofPlaces] at h
    omega
  undirected := edge?_comm places conditions
  no_edge_iff i j hij hi hj := edge?_eq_none_iff hij hi hj
  label i j l h := label?_of_edge? h
  same_label i j l i' j' l' h h' := edge?_label_eq_iff h h'
  nodup_labels := nodup_labelSets places conditions
  dense l := by
    constructor
    · intro hl
      exact exists_edge?_of_label? (List.getElem?_eq_getElem hl)
    · rintro ⟨i, j, h⟩
      obtain ⟨vs, hvs, _⟩ := label?_of_edge? h
      exact (List.getElem?_eq_some_iff.mp hvs).1
  first_shown l l' hl i j hij h := exists_edge?_earlier hl hij h

end JoinGraph

end ConstraintRules
