import ConstraintRules.Join.Component
import ConstraintRules.Proofs.JoinEdges
import Mathlib.Data.List.Sort

/-! Components as classes. With more than two places, the components of a join
graph are the classes of places that chains of edges link. -/

namespace ConstraintRules.JoinGraph

variable {g : JoinGraph} {i j : Nat}

/-- Edges have no direction and lead to places. -/
structure Undirected (g : JoinGraph) : Prop where
  symm : ∀ i j, g.joined i j = true → g.joined j i = true
  lt_size : ∀ i j, g.joined i j = true → i < g.size

def Linked (g : JoinGraph) : Nat → Nat → Prop :=
  Relation.ReflTransGen fun i j => g.joined i j = true

theorem undirected_ofPlaces (places conditions : List (List VarId)) :
    (ofPlaces places conditions).Undirected where
  symm i j h := by
    obtain ⟨hij, a, b, hi, hj, htied⟩ := joined_ofPlaces.mp h
    exact joined_ofPlaces.mpr ⟨hij.symm, b, a, hj, hi, htied.symm⟩
  lt_size i j h := by
    obtain ⟨_, a, _, hi, _⟩ := joined_ofPlaces.mp h
    exact (List.getElem?_eq_some_iff.mp hi).1

theorem Undirected.linked_symm (h : g.Undirected) (hij : g.Linked i j) : g.Linked j i := by
  induction hij with
  | refl => exact .refl
  | tail _ hjoined ih => exact .head (h.symm _ _ hjoined) ih

theorem Undirected.lt_size_of_linked (h : g.Undirected) (hi : i < g.size) (hij : g.Linked i j) :
    j < g.size := by
  rcases Relation.ReflTransGen.cases_tail hij with rfl | ⟨k, _, hkj⟩
  · exact hi
  · exact h.lt_size j k (h.symm k j hkj)

section Classes

variable {c c' : List Nat}

/-- The places linked to one of them, ascending. -/
def IsClass (g : JoinGraph) (c : List Nat) : Prop :=
  c.Pairwise (· < ·) ∧ ∃ i < g.size, ∀ j, j ∈ c ↔ g.Linked i j

theorem IsClass.mem_iff (hc : g.IsClass c) (h : g.Undirected) (hi : i ∈ c) :
    j ∈ c ↔ g.Linked i j := by
  obtain ⟨_, k, _, hmem⟩ := hc
  have hki := (hmem i).mp hi
  rw [hmem]
  exact ⟨fun hkj => (h.linked_symm hki).trans hkj, fun hij => hki.trans hij⟩

theorem IsClass.eq_of_mem (hc : g.IsClass c) (hc' : g.IsClass c') (h : g.Undirected) (hi : i ∈ c)
    (hi' : i ∈ c') : c = c' :=
  hc.1.eq_of_mem_iff hc'.1 fun _ => (hc.mem_iff h hi).trans (hc'.mem_iff h hi').symm

theorem IsClass.lt_size (hc : g.IsClass c) (h : g.Undirected) (hi : i ∈ c) : i < g.size := by
  obtain ⟨_, k, hk, hmem⟩ := hc
  exact h.lt_size_of_linked hk ((hmem i).mp hi)

end Classes

section Gathering

variable {root : Nat} {roots stack component seen : List Nat} {finished : List (List Nat)}

/-- The state of a walk: what is seen are the finished classes and the current one, of which only
the stacked places may have unseen neighbours. -/
structure Gathering (g : JoinGraph) (root : Nat) (finished : List (List Nat))
    (stack component seen : List Nat) : Prop where
  mem_seen : ∀ i, i ∈ seen ↔ i ∈ component ∨ ∃ c ∈ finished, i ∈ c
  disjoint : ∀ i ∈ component, ∀ c ∈ finished, i ∉ c
  root_mem : root ∈ component
  linked : ∀ i ∈ component, g.Linked root i
  nodup : component.Nodup
  stacked : ∀ i ∈ stack, i ∈ component
  closed : ∀ i ∈ component, i ∉ stack → ∀ j, g.joined i j = true → j ∈ component

theorem Gathering.not_mem_of_unseen (hs : g.Gathering root finished stack component seen)
    (hj : j ∈ g.unseen i seen) : j ∉ component ∧ ∀ c ∈ finished, j ∉ c := by
  have hnot := (mem_unseen.mp hj).2.2
  rw [hs.mem_seen, not_or] at hnot
  exact ⟨hnot.1, fun c hc hjc => hnot.2 ⟨c, hc, hjc⟩⟩

theorem Gathering.step {rest : List Nat} (hs : g.Gathering root finished (i :: rest) component seen)
    (h : g.Undirected) (hclasses : ∀ c ∈ finished, g.IsClass c) :
    g.Gathering root finished ((g.unseen i seen).reverse ++ rest) (component ++ g.unseen i seen)
      (g.unseen i seen ++ seen) where
  mem_seen := by
    intro j
    rw [List.mem_append, hs.mem_seen, List.mem_append, ← or_assoc, or_comm (a := j ∈ component)]
  disjoint := by
    intro j hj c hc
    rcases List.mem_append.mp hj with hj | hj
    · exact hs.disjoint j hj c hc
    · exact (hs.not_mem_of_unseen hj).2 c hc
  root_mem := List.mem_append_left _ hs.root_mem
  linked := by
    intro j hj
    rcases List.mem_append.mp hj with hj | hj
    · exact hs.linked j hj
    · exact .tail (hs.linked i (hs.stacked i List.mem_cons_self)) (mem_unseen.mp hj).2.1
  nodup := by
    refine List.Nodup.append hs.nodup (g.unseen_nodup i seen) fun j hj hj' => ?_
    exact (hs.not_mem_of_unseen hj').1 hj
  stacked := by
    intro j hj
    rw [List.mem_append, List.mem_reverse] at hj
    rw [List.mem_append]
    exact hj.symm.imp (fun hj => hs.stacked j (List.mem_cons_of_mem i hj)) id
  closed := by
    intro j hj hstack k hjk
    rw [List.mem_append, List.mem_reverse, not_or] at hstack
    have hold : j ∈ component := (List.mem_append.mp hj).resolve_right hstack.1
    by_cases hji : j = i
    · -- a neighbour of `i` in a finished class would have drawn `i` into it
      subst hji
      by_cases hseen : k ∈ seen
      · refine List.mem_append_left _ (((hs.mem_seen k).mp hseen).resolve_right ?_)
        rintro ⟨c, hc, hkc⟩
        have hjc := ((hclasses c hc).mem_iff h hkc).mpr (.single (h.symm j k hjk))
        exact hs.disjoint j hold c hc hjc
      · have hk : k < g.size := h.lt_size k j (h.symm j k hjk)
        exact List.mem_append_right _ (mem_unseen.mpr ⟨hk, hjk, hseen⟩)
    · have hrest : j ∉ i :: rest := by simp [hji, hstack.2]
      exact List.mem_append_left _ (hs.closed j hold hrest k hjk)

theorem Gathering.gather_spec (hs : g.Gathering root finished stack component seen)
    (h : g.Undirected) (hclasses : ∀ c ∈ finished, g.IsClass c) :
    g.Gathering root finished [] (g.gather stack component seen).1
      (g.gather stack component seen).2 := by
  fun_induction gather g stack component seen with
  | case1 component seen => exact hs
  | case2 component seen i rest fresh ih => exact ih (hs.step h hclasses)

/-- With an empty stack, the component is the class of the root. -/
theorem Gathering.isClass (hs : g.Gathering root finished [] component seen)
    (hroot : root < g.size) : g.IsClass component.mergeSort := by
  refine ⟨?_, root, hroot, fun j => ?_⟩
  · have hsorted : component.mergeSort.Pairwise (· ≤ ·) :=
      List.pairwise_mergeSort' (· ≤ ·) component
    have hnodup : component.mergeSort.Nodup := (List.mergeSort_perm _ _).nodup_iff.mpr hs.nodup
    exact hsorted.imp₂ (fun _ _ hle hne => Nat.lt_of_le_of_ne hle hne) hnodup
  · rw [List.mem_mergeSort]
    refine ⟨hs.linked j, fun hlinked => ?_⟩
    induction hlinked with
    | refl => exact hs.root_mem
    | tail _ hjoined ih => exact hs.closed _ ih List.not_mem_nil _ hjoined

/-- Between two roots: the finished classes hold what is seen and come in order, before the roots
that are left. -/
structure Divided (g : JoinGraph) (roots : List Nat) (finished : List (List Nat))
    (seen : List Nat) : Prop where
  mem_seen : ∀ i, i ∈ seen ↔ ∃ c ∈ finished, i ∈ c
  isClass : ∀ c ∈ finished, g.IsClass c
  covered : ∀ i < g.size, i ∈ seen ∨ i ∈ roots
  ordered : finished.Pairwise fun c c' => ∃ m ∈ c, (∀ k ∈ c, m ≤ k) ∧ ∀ k ∈ c', m < k
  least : ∀ c ∈ finished, ∃ m ∈ c, (∀ k ∈ c, m ≤ k) ∧ ∀ k ∈ roots, m < k

theorem Divided.skip (hd : g.Divided (root :: roots) finished seen) (hroot : root ∈ seen) :
    g.Divided roots finished seen where
  mem_seen := hd.mem_seen
  isClass := hd.isClass
  covered := by
    intro i hi
    rcases hd.covered i hi with hseen | hroots
    · exact Or.inl hseen
    · rcases List.mem_cons.mp hroots with rfl | hroots
      · exact Or.inl hroot
      · exact Or.inr hroots
  ordered := hd.ordered
  least := by
    intro c hc
    obtain ⟨m, hm, hle, hlt⟩ := hd.least c hc
    exact ⟨m, hm, hle, fun k hk => hlt k (List.mem_cons_of_mem root hk)⟩

theorem Divided.gathering (hd : g.Divided (root :: roots) finished seen) (hroot : root ∉ seen) :
    g.Gathering root finished [root] [root] (root :: seen) where
  mem_seen := by simp [hd.mem_seen]
  disjoint := by
    intro i hi c hc hic
    cases List.mem_singleton.mp hi
    exact hroot ((hd.mem_seen root).mpr ⟨c, hc, hic⟩)
  root_mem := List.mem_cons_self
  linked := by
    intro i hi
    cases List.mem_singleton.mp hi
    exact .refl
  nodup := List.nodup_singleton root
  stacked := fun _ hi => hi
  closed := fun _ hi hstack => absurd hi hstack

/-- What is in no finished class is not seen, so that it is one of the roots. -/
theorem Divided.mem_roots (hd : g.Divided roots finished seen) {seen' : List Nat}
    (hs : g.Gathering root finished stack component seen') (hi : i ∈ component)
    (hsize : i < g.size) : i ∈ roots := by
  refine (hd.covered i hsize).resolve_left fun hseen => ?_
  obtain ⟨c, hc, hic⟩ := (hd.mem_seen i).mp hseen
  exact hs.disjoint i hi c hc hic

theorem Divided.finish (hd : g.Divided (root :: roots) finished seen) {seen' : List Nat}
    (hs : g.Gathering root finished [] component seen') (hroot : root < g.size)
    (hroots : (root :: roots).Pairwise (· < ·)) (h : g.Undirected) :
    g.Divided roots (finished ++ [component.mergeSort]) seen' := by
  have hclass := hs.isClass hroot
  obtain ⟨hfirst, _⟩ := List.pairwise_cons.mp hroots
  have hleft : ∀ k ∈ component.mergeSort, k ∈ root :: roots := fun k hk =>
    hd.mem_roots hs (List.mem_mergeSort.mp hk) (hclass.lt_size h hk)
  refine ⟨fun i => ?_, fun c hc => ?_, fun i hi => ?_, ?_, fun c hc => ?_⟩
  · rw [hs.mem_seen]
    simp [or_and_right, exists_or, or_comm]
  · rcases List.mem_append.mp hc with hc | hc
    · exact hd.isClass c hc
    · cases List.mem_singleton.mp hc
      exact hclass
  · rw [hs.mem_seen]
    rcases hd.covered i hi with hseen | hmem
    · exact Or.inl (Or.inr ((hd.mem_seen i).mp hseen))
    · rcases List.mem_cons.mp hmem with rfl | hmem
      · exact Or.inl (Or.inl hs.root_mem)
      · exact Or.inr hmem
  · refine List.pairwise_append.mpr ⟨hd.ordered, List.pairwise_singleton _ _, fun c hc c' hc' => ?_⟩
    cases List.mem_singleton.mp hc'
    obtain ⟨m, hm, hle, hlt⟩ := hd.least c hc
    exact ⟨m, hm, hle, fun k hk => hlt k (hleft k hk)⟩
  · rcases List.mem_append.mp hc with hc | hc
    · obtain ⟨m, hm, hle, hlt⟩ := hd.least c hc
      exact ⟨m, hm, hle, fun k hk => hlt k (List.mem_cons_of_mem root hk)⟩
    · cases List.mem_singleton.mp hc
      refine ⟨root, List.mem_mergeSort.mpr hs.root_mem, fun k hk => ?_, hfirst⟩
      rcases List.mem_cons.mp (hleft k hk) with rfl | hk
      · exact Nat.le_refl k
      · exact Nat.le_of_lt (hfirst k hk)

theorem Divided.componentsFrom_spec (hd : g.Divided roots finished seen) (h : g.Undirected)
    (hroots : roots.Pairwise (· < ·)) (hsize : ∀ i ∈ roots, i < g.size) :
    ∃ seen', g.Divided [] (finished ++ g.componentsFrom roots seen) seen' := by
  induction roots generalizing finished seen with
  | nil =>
    rw [componentsFrom, List.append_nil]
    exact ⟨seen, hd⟩
  | cons root roots ih =>
    have htail := (List.pairwise_cons.mp hroots).2
    have hsize' : ∀ i ∈ roots, i < g.size := fun i hi => hsize i (List.mem_cons_of_mem root hi)
    rw [componentsFrom]
    by_cases hroot : root ∈ seen
    · rw [if_pos hroot]
      exact ih (hd.skip hroot) htail hsize'
    · have hs := (hd.gathering hroot).gather_spec h hd.isClass
      have hnext := ih (hd.finish hs (hsize root List.mem_cons_self) hroots h) htail hsize'
      rw [if_neg hroot]
      rwa [List.append_assoc] at hnext

theorem Undirected.divided_components (h : g.Undirected) (hsize : 2 < g.size) :
    ∃ seen, g.Divided [] g.components seen := by
  have hstart : g.Divided g.places [] [] := by
    refine ⟨by simp, by simp, fun i hi => Or.inr (List.mem_range.mpr hi), .nil, by simp⟩
  rw [components, if_neg (by omega), if_neg (by omega)]
  exact hstart.componentsFrom_spec h List.pairwise_lt_range fun i hi => List.mem_range.mp hi

end Gathering

theorem isConnected_iff : g.isConnected = true ↔ g.components.length ≤ 1 := decide_eq_true_iff

section Components

variable {c : List Nat} (h : g.Undirected) (hsize : 2 < g.size)

include h hsize

theorem Undirected.mem_components_iff : c ∈ g.components ↔ g.IsClass c := by
  obtain ⟨seen, hd⟩ := h.divided_components hsize
  refine ⟨hd.isClass c, fun hc => ?_⟩
  obtain ⟨i, hi, hmem⟩ := hc.2
  have hseen : i ∈ seen := (hd.covered i hi).resolve_right List.not_mem_nil
  obtain ⟨d, hd', hid⟩ := (hd.mem_seen i).mp hseen
  rw [hc.eq_of_mem (hd.isClass d hd') h ((hmem i).mpr .refl) hid]
  exact hd'

theorem Undirected.components_pairwise :
    g.components.Pairwise fun c c' => ∃ m ∈ c, (∀ k ∈ c, m ≤ k) ∧ ∀ k ∈ c', m < k := by
  obtain ⟨_, hd⟩ := h.divided_components hsize
  exact hd.ordered

theorem Undirected.exists_component (hi : i < g.size) : ∃ c ∈ g.components, i ∈ c := by
  obtain ⟨seen, hd⟩ := h.divided_components hsize
  exact (hd.mem_seen i).mp ((hd.covered i hi).resolve_right List.not_mem_nil)

theorem Undirected.same_component (hi : i < g.size) :
    (∃ c ∈ g.components, i ∈ c ∧ j ∈ c) ↔ g.Linked i j := by
  constructor
  · rintro ⟨c, hc, hic, hjc⟩
    exact (((h.mem_components_iff hsize).mp hc).mem_iff h hic).mp hjc
  · intro hij
    obtain ⟨c, hc, hic⟩ := h.exists_component hsize hi
    exact ⟨c, hc, hic, (((h.mem_components_iff hsize).mp hc).mem_iff h hic).mpr hij⟩

theorem Undirected.flatten_components_perm : g.components.flatten.Perm (List.range g.size) := by
  have hclass : ∀ c ∈ g.components, g.IsClass c := fun c => (h.mem_components_iff hsize).mp
  have hdisjoint : g.components.Pairwise List.Disjoint := by
    refine (h.components_pairwise hsize).imp_of_mem fun {c c'} hc hc' hleast k hk hk' => ?_
    obtain ⟨m, hm, _, hlt⟩ := hleast
    rw [(hclass c hc).eq_of_mem (hclass c' hc') h hk hk'] at hm
    exact Nat.lt_irrefl m (hlt m hm)
  have hflat : g.components.flatten.Nodup :=
    List.nodup_flatten.mpr ⟨fun c hc => (hclass c hc).1.imp Nat.ne_of_lt, hdisjoint⟩
  refine (List.perm_ext_iff_of_nodup hflat List.nodup_range).mpr fun i => ?_
  rw [List.mem_flatten, List.mem_range]
  constructor
  · rintro ⟨c, hc, hi⟩
    exact (hclass c hc).lt_size h hi
  · exact h.exists_component hsize

theorem Undirected.isConnected_iff_linked :
    g.isConnected = true ↔ ∀ i < g.size, ∀ j < g.size, g.Linked i j := by
  rw [isConnected_iff]
  constructor
  · intro hlength i hi j hj
    obtain ⟨c, hc, hic⟩ := h.exists_component hsize hi
    obtain ⟨c', hc', hjc⟩ := h.exists_component hsize hj
    refine (h.same_component hsize hi).mp ⟨c, hc, hic, ?_⟩
    have hone : g.components.length = 1 := Nat.le_antisymm hlength (List.length_pos_of_mem hc)
    obtain ⟨d, hd⟩ := List.length_eq_one_iff.mp hone
    rw [hd, List.mem_singleton] at hc hc'
    rwa [hc, ← hc']
  · intro hlinked
    by_contra hlength
    -- two components would have a common member
    have hone : 1 < g.components.length := by omega
    obtain ⟨m, hm, _, hlt⟩ := List.pairwise_iff_getElem.mp (h.components_pairwise hsize) 0 1
      (by omega) hone Nat.zero_lt_one
    obtain ⟨_, i, hi, hmem⟩ := (h.mem_components_iff hsize).mp (List.getElem_mem hone)
    have hm' := ((h.mem_components_iff hsize).mp (List.getElem_mem _)).lt_size h hm
    exact Nat.lt_irrefl m (hlt m ((hmem m).mpr (hlinked i hi m hm')))

end Components

/-- The components of a join graph are the classes of linked places, except that up to two
places are one component. -/
theorem components_exact (places conditions : List (List VarId)) :
    let g := ofPlaces places conditions
    (places.length = 0 → g.components = []) ∧
    (places.length = 1 ∨ places.length = 2 → g.components = [List.range places.length]) ∧
    (2 < places.length →
      (∀ c, c ∈ g.components ↔ c.Pairwise (· < ·) ∧
        ∃ i < places.length, ∀ j, j ∈ c ↔ g.Linked i j) ∧
      (g.components.Pairwise fun c c' => ∃ m ∈ c, (∀ k ∈ c, m ≤ k) ∧ ∀ k ∈ c', m < k) ∧
      g.components.flatten.Perm (List.range places.length) ∧
      (g.isConnected = true ↔ ∀ i < places.length, ∀ j < places.length, g.Linked i j)) ∧
    (g.isConnected = true ↔ g.components.length ≤ 1) := by
  intro g
  have hg : g.Undirected := undirected_ofPlaces places conditions
  have hsize : g.size = places.length := rfl
  refine ⟨fun hzero => ?_, fun hsmall => ?_, fun hlarge => ?_, isConnected_iff⟩
  · rw [components, if_pos (hsize.trans hzero)]
  · rw [components, if_neg (by omega), if_pos (by omega)]
    rfl
  · exact ⟨fun c => hg.mem_components_iff hlarge, hg.components_pairwise hlarge,
      hg.flatten_components_perm hlarge, hg.isConnected_iff_linked hlarge⟩

end ConstraintRules.JoinGraph
