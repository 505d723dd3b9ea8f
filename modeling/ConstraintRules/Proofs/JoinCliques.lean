import ConstraintRules.Proofs.CliqueSearch
import ConstraintRules.Proofs.JoinLabels
import Mathlib.Data.List.Lex
import Mathlib.Data.List.Sort

/-! The maximal cliques of a join graph are listed once each, ascending by label
and then by places. -/

namespace ConstraintRules

namespace JoinGraph

variable {places conditions : List (List VarId)} {g : JoinGraph} {l : LabelId} {i j : Nat}
  {s : Finset Nat}

theorem joinedBy_iff : g.joinedBy l i j = true ↔ g.edge? i j = some l := decide_eq_true_iff

/-- Two or more places that are pairwise joined by a label, such that no other place is
joined to all of them by it. -/
structure IsMaximalClique (g : JoinGraph) (l : LabelId) (s : Finset Nat) : Prop where
  two_le_card : 2 ≤ s.card
  lt_size : ∀ a ∈ s, a < g.size
  joined : ∀ a ∈ s, ∀ b ∈ s, a ≠ b → g.edge? a b = some l
  maximal : ∀ c < g.size, c ∉ s → ∃ a ∈ s, g.edge? c a ≠ some l

theorem joinedBy_undirected : Clique.Undirected ((ofPlaces places conditions).joinedBy l) where
  symm i j := by rw [joinedBy, joinedBy, edge?_comm]
  irrefl i := by
    rw [joinedBy, decide_eq_false_iff_not]
    exact fun h => (edge?_eq_some_iff.mp h).1 rfl

theorem lt_size_of_joinedBy (h : (ofPlaces places conditions).joinedBy l i j = true) :
    i < (ofPlaces places conditions).size := by
  obtain ⟨a, _, hi, _⟩ := exists_of_edge?_ofPlaces (joinedBy_iff.mp h)
  exact (List.getElem?_eq_some_iff.mp hi).1

theorem isMaximalClique_iff : (ofPlaces places conditions).IsMaximalClique l s ↔
    Clique.IsMaximal ((ofPlaces places conditions).joinedBy l) s := by
  constructor
  · intro h
    refine ⟨h.two_le_card, fun a ha b hb hab => joinedBy_iff.mpr (h.joined a ha b hb hab),
      fun c hc => ?_⟩
    by_cases hlt : c < (ofPlaces places conditions).size
    · obtain ⟨a, ha, hne⟩ := h.maximal c hlt hc
      exact ⟨a, ha, decide_eq_false hne⟩
    · obtain ⟨a, ha⟩ := Finset.card_pos.mp (Nat.lt_of_lt_of_le Nat.zero_lt_two h.two_le_card)
      refine ⟨a, ha, Bool.eq_false_iff.mpr fun hca => hlt (lt_size_of_joinedBy hca)⟩
  · intro h
    refine ⟨h.two_le_card, fun a ha => ?_,
      fun a ha b hb hab => joinedBy_iff.mp (h.adjacent a ha b hb hab),
      fun c _ hc => ?_⟩
    · obtain ⟨w, _, haw⟩ := h.exists_adjacent ha
      exact lt_size_of_joinedBy haw
    · obtain ⟨a, ha, hca⟩ := h.maximal c hc
      exact ⟨a, ha, of_decide_eq_false hca⟩

theorem frontier_places : Clique.Frontier ((ofPlaces places conditions).joinedBy l) []
    ((ofPlaces places conditions).places.filter fun i =>
      (ofPlaces places conditions).places.any ((ofPlaces places conditions).joinedBy l i)) [] := by
  refine ⟨List.nodup_nil, by simp, List.nodup_range.filter _, fun v => ?_⟩
  simp only [JoinGraph.places, List.mem_filter, List.mem_range, List.any_eq_true,
    List.not_mem_nil, or_false, false_imp_iff, implies_true, and_true]
  constructor
  · rintro ⟨_, w, _, hvw⟩
    exact ⟨w, hvw⟩
  · rintro ⟨w, hvw⟩
    have hwv := hvw
    rw [joinedBy_undirected.symm] at hwv
    exact ⟨lt_size_of_joinedBy hvw, w, lt_size_of_joinedBy hwv, hvw⟩

theorem toFinset_filter_places {clique : List Nat} (h : ∀ i ∈ clique, i < g.size) :
    (g.places.filter fun i => decide (i ∈ clique)).toFinset = clique.toFinset := by
  ext i
  simp only [JoinGraph.places, List.mem_toFinset, List.mem_filter, List.mem_range,
    decide_eq_true_eq]
  exact ⟨fun hi => hi.2, fun hi => ⟨h i hi, hi⟩⟩

theorem cliquesOf_lists (places conditions : List (List VarId)) (l : LabelId) :
    Clique.Lists ((ofPlaces places conditions).cliquesOf l)
      (Clique.IsMaximal ((ofPlaces places conditions).joinedBy l)) := by
  have hstart := @frontier_places places conditions l
  have hfound :=
    (Clique.extend_lists joinedBy_undirected hstart).congr fun _ => hstart.completes_start_iff
  refine Clique.Lists.perm ?_ (List.mergeSort_perm _ _)
  refine hfound.of_map fun clique hclique => toFinset_filter_places fun i hi => ?_
  have hmaximal := (hfound.mem_iff _).mp (List.mem_map_of_mem hclique)
  obtain ⟨w, _, hiw⟩ := hmaximal.exists_adjacent (List.mem_toFinset.mpr hi)
  exact lt_size_of_joinedBy hiw

theorem pairwise_of_mem_cliquesOf {nodes : List Nat} (h : nodes ∈ g.cliquesOf l) :
    nodes.Pairwise (· < ·) := by
  obtain ⟨clique, _, rfl⟩ := List.mem_map.mp (List.mem_mergeSort.mp h)
  exact List.pairwise_lt_range.filter _

theorem not_lex_eq (is js : List Nat) :
    (!js.lex is fun i j => decide (i < j)) = decide (is ≤ js) := by
  have hlt : js.lex is (fun i j => decide (i < j)) = true ↔ js < is := by
    rw [List.lex_eq_true_iff_lex]
    simp only [decide_eq_true_eq]
    rfl
  rw [Bool.eq_iff_iff, Bool.not_eq_true', ← Bool.not_eq_true, hlt, not_lt, decide_eq_true_eq]

theorem cliquesOf_pairwise (places conditions : List (List VarId)) (l : LabelId) :
    ((ofPlaces places conditions).cliquesOf l).Pairwise (List.Lex (· < ·)) := by
  have hle : ((ofPlaces places conditions).cliquesOf l).Pairwise (· ≤ ·) := by
    simp only [cliquesOf, not_lex_eq]
    exact List.pairwise_mergeSort' (· ≤ ·) _
  have hnodup : ((ofPlaces places conditions).cliquesOf l).Nodup :=
    (cliquesOf_lists places conditions l).nodup.of_map
  exact (hle.and hnodup).imp fun h => lt_of_le_of_ne h.1 h.2

theorem mem_maximalCliques {q : Clique} :
    q ∈ g.maximalCliques ↔ g.label? q.label = some q.joinVars ∧ q.nodes ∈ g.cliquesOf q.label := by
  simp only [maximalCliques, label?, List.mem_flatMap, List.mem_map, Prod.exists,
    List.mem_zipIdx_iff_getElem?]
  constructor
  · rintro ⟨vars, k, hvars, nodes, hnodes, rfl⟩
    exact ⟨hvars, hnodes⟩
  · rintro ⟨hvars, hnodes⟩
    exact ⟨q.joinVars, q.label.index, hvars, q.nodes, hnodes, rfl⟩

theorem maximalCliques_pairwise (places conditions : List (List VarId)) :
    (ofPlaces places conditions).maximalCliques.Pairwise fun q q' =>
      q.label.index < q'.label.index ∨ q.label = q'.label ∧ List.Lex (· < ·) q.nodes q'.nodes := by
  -- within one label by the order of its cliques, between labels by their numbers
  rw [maximalCliques, List.pairwise_flatMap]
  constructor
  · intro vl _
    rw [List.pairwise_map]
    exact (cliquesOf_pairwise places conditions ⟨vl.2⟩).imp fun h => Or.inr ⟨rfl, h⟩
  · refine (zipIdx_pairwise _).imp fun hlt q hq q' hq' => Or.inl ?_
    obtain ⟨nodes, _, rfl⟩ := List.mem_map.mp hq
    obtain ⟨nodes', _, rfl⟩ := List.mem_map.mp hq'
    exact hlt

theorem exists_label?_of_mem_cliquesOf {nodes : List Nat}
    (h : nodes ∈ (ofPlaces places conditions).cliquesOf l) :
    ∃ vars, (ofPlaces places conditions).label? l = some vars := by
  have hmaximal := ((cliquesOf_lists places conditions l).mem_iff _).mp (List.mem_map_of_mem h)
  obtain ⟨v, hv⟩ := Finset.card_pos.mp (Nat.lt_of_lt_of_le Nat.zero_lt_two hmaximal.two_le_card)
  obtain ⟨w, _, hvw⟩ := hmaximal.exists_adjacent hv
  obtain ⟨vars, hvars, _⟩ := label?_of_edge? (joinedBy_iff.mp hvw)
  exact ⟨vars, hvars⟩

theorem eq_of_mem_maximalCliques {q q' : Clique} (hq : q ∈ g.maximalCliques)
    (hq' : q' ∈ g.maximalCliques) (hlabel : q.label = q'.label)
    (hnodes : q.nodes.toFinset = q'.nodes.toFinset) : q = q' := by
  obtain ⟨hvars, hmem⟩ := mem_maximalCliques.mp hq
  obtain ⟨hvars', hmem'⟩ := mem_maximalCliques.mp hq'
  have hsame : q.nodes = q'.nodes :=
    (pairwise_of_mem_cliquesOf hmem).eq_of_mem_iff (pairwise_of_mem_cliquesOf hmem') fun i => by
      rw [← List.mem_toFinset, hnodes, List.mem_toFinset]
  rw [hlabel, hvars'] at hvars
  cases q
  cases q'
  simp_all

theorem nodup_maximalCliques (places conditions : List (List VarId)) :
    (ofPlaces places conditions).maximalCliques.Nodup := by
  refine (maximalCliques_pairwise places conditions).imp fun {q q'} h he => ?_
  rcases h with h | ⟨_, h⟩
  · exact Nat.ne_of_lt h (congrArg (fun q => q.label.index) he)
  · exact List.lex_irrefl Nat.lt_irrefl _ (he ▸ h)

/-- For every label, the maximal cliques are listed, each once, in ascending order. -/
theorem maximalCliques_exact (places conditions : List (List VarId)) :
    let g := ofPlaces places conditions
    (g.maximalCliques.map fun q => (q.label, q.nodes.toFinset)).Nodup ∧
    (∀ l s, (l, s) ∈ g.maximalCliques.map (fun q => (q.label, q.nodes.toFinset)) ↔
      g.IsMaximalClique l s) ∧
    (∀ q ∈ g.maximalCliques, q.nodes.Pairwise (· < ·) ∧ g.label? q.label = some q.joinVars) ∧
    g.maximalCliques.Pairwise fun q q' =>
      q.label.index < q'.label.index ∨ q.label = q'.label ∧ List.Lex (· < ·) q.nodes q'.nodes := by
  intro g
  refine ⟨?_, fun l s => ?_, fun q hq => ?_, maximalCliques_pairwise places conditions⟩
  · refine (nodup_maximalCliques places conditions).map_on fun q hq q' hq' he => ?_
    exact eq_of_mem_maximalCliques hq hq' (congrArg Prod.fst he) (congrArg Prod.snd he)
  · rw [isMaximalClique_iff, ← (cliquesOf_lists places conditions l).mem_iff]
    constructor
    · intro hmem
      obtain ⟨q, hq, he⟩ := List.mem_map.mp hmem
      cases he
      exact List.mem_map_of_mem (mem_maximalCliques.mp hq).2
    · intro hmem
      obtain ⟨nodes, hnodes, rfl⟩ := List.mem_map.mp hmem
      obtain ⟨vars, hvars⟩ := exists_label?_of_mem_cliquesOf hnodes
      exact List.mem_map.mpr ⟨⟨l, vars, nodes⟩, mem_maximalCliques.mpr ⟨hvars, hnodes⟩, rfl⟩
  · obtain ⟨hvars, hnodes⟩ := mem_maximalCliques.mp hq
    exact ⟨pairwise_of_mem_cliquesOf hnodes, hvars⟩

end JoinGraph

end ConstraintRules
