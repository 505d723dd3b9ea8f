import ConstraintRules.Join.Cycle
import ConstraintRules.Proofs.JoinClasses
import Mathlib.Data.List.Chain

/-! Cycles of a join graph. The visits of a walk form a tree, and only an edge
besides its branches closes a cycle. -/

namespace ConstraintRules.JoinGraph

variable {g : JoinGraph} {cycle : List Nat} {i j u v : Nat}

/-- Three or more distinct places, each joined to the next and the last to the first. -/
structure IsCycle (g : JoinGraph) (cycle : List Nat) : Prop where
  three_le : 3 ≤ cycle.length
  nodup : cycle.Nodup
  chain : cycle.IsChain fun i j => g.joined i j = true
  closed : ∀ first ∈ cycle.head?, ∀ last ∈ cycle.getLast?, g.joined last first = true

def Loopless (g : JoinGraph) : Prop := ∀ i, g.joined i i = false

theorem loopless_ofPlaces (places conditions : List (List VarId)) :
    (ofPlaces places conditions).Loopless :=
  fun _ => Bool.eq_false_iff.mpr fun h => (joined_ofPlaces.mp h).1 rfl

section Rotation

theorem IsCycle.rotate {before after : List Nat} (h : g.IsCycle (before ++ after)) :
    g.IsCycle (after ++ before) := by
  rcases List.eq_nil_or_concat before with rfl | ⟨before, l, rfl⟩
  · simpa using h
  · cases after with
    | nil => simpa using h
    | cons f after =>
      obtain ⟨hbefore, hafter, hjoin⟩ := List.isChain_append.mp h.chain
      refine ⟨?_, List.nodup_append_comm.mp h.nodup,
        List.isChain_append.mpr ⟨hafter, hbefore, fun x hx y hy => ?_⟩, ?_⟩
      · have hlength := h.three_le
        rw [List.length_append] at hlength ⊢
        omega
      · refine h.closed y ?_ x ?_
        · rw [List.head?_append_of_ne_nil _ (by simp)]
          exact hy
        · rw [List.getLast?_append_of_ne_nil _ (by simp)]
          exact hx
      · intro first hfirst last hlast
        rw [List.head?_append_of_ne_nil _ (by simp)] at hfirst
        rw [List.getLast?_append_of_ne_nil _ (by simp)] at hlast
        exact hjoin last hlast first hfirst

theorem IsCycle.exists_neighbours (h : g.IsCycle cycle) (hg : g.Undirected) (hi : i ∈ cycle) :
    ∃ a ∈ cycle, ∃ b ∈ cycle, a ≠ b ∧ g.joined i a = true ∧ g.joined i b = true := by
  obtain ⟨before, after, rfl⟩ := List.append_of_mem hi
  have hrotated := h.rotate
  have hmem : ∀ x ∈ after ++ before, x ∈ before ++ i :: after := fun x hx => by
    simp only [List.mem_append, List.mem_cons] at hx ⊢
    tauto
  rw [List.cons_append] at hrotated
  generalize after ++ before = others at hrotated hmem
  cases others with
  | nil => exact absurd hrotated.three_le (by simp)
  | cons a others =>
    rcases List.eq_nil_or_concat others with rfl | ⟨others, b, rfl⟩
    · exact absurd hrotated.three_le (by simp)
    · rw [List.concat_eq_append] at hrotated hmem
      refine ⟨a, hmem a List.mem_cons_self, b, hmem b (by simp), fun hab => ?_, ?_, ?_⟩
      · have hnodup := hrotated.nodup
        simp [hab] at hnodup
      · exact (List.isChain_cons_cons.mp hrotated.chain).1
      · exact hg.symm b i (hrotated.closed i rfl b (by simp [List.getLast?_cons]))

theorem IsCycle.subset_places (h : g.IsCycle cycle) (hg : g.Undirected) : cycle ⊆ g.places := by
  intro i hi
  obtain ⟨a, _, _, _, _, hia, _⟩ := h.exists_neighbours hg hi
  exact List.mem_range.mpr (hg.lt_size i a hia)

theorem IsCycle.two_lt_size (h : g.IsCycle cycle) (hg : g.Undirected) : 2 < g.size := by
  have hle := (List.subperm_of_subset h.nodup (h.subset_places hg)).length_le
  rw [places, List.length_range] at hle
  exact Nat.lt_of_lt_of_le h.three_le hle

end Rotation

section Tree

/-- The visits of one walk, the latest first. Each place is new and is
reached from an earlier one. -/
inductive Tree (g : JoinGraph) (root : Nat) : List Visit → Prop where
  | root : Tree g root [⟨root, none⟩]
  | branch {t : List Visit} {u v : Nat} : Tree g root t → u ∈ t.map Visit.place →
      v ∉ t.map Visit.place → g.joined u v = true → Tree g root (⟨v, some u⟩ :: t)

/-- One of two places was reached from the other. -/
def Branch (t : List Visit) (i j : Nat) : Prop := ⟨i, some j⟩ ∈ t ∨ ⟨j, some i⟩ ∈ t

variable {root : Nat} {t : List Visit}

theorem Branch.symm (h : Branch t i j) : Branch t j i := Or.symm h

theorem Branch.cons (h : Branch t i j) (v : Visit) : Branch (v :: t) i j :=
  h.imp (List.mem_cons_of_mem v) (List.mem_cons_of_mem v)

theorem Tree.root_mem (ht : g.Tree root t) : root ∈ t.map Visit.place := by
  induction ht with
  | root => exact List.mem_cons_self
  | branch _ _ _ _ ih => exact List.mem_cons_of_mem _ ih

theorem Tree.nodup (ht : g.Tree root t) : (t.map Visit.place).Nodup := by
  induction ht with
  | root => exact List.nodup_singleton root
  | branch _ _ hv _ ih => exact List.nodup_cons.mpr ⟨hv, ih⟩

theorem Tree.eq_of_place_eq (ht : g.Tree root t) {v w : Visit} (hv : v ∈ t) (hw : w ∈ t)
    (h : v.place = w.place) : v = w :=
  List.inj_on_of_nodup_map ht.nodup hv hw h

theorem Tree.parent (ht : g.Tree root t) (h : ⟨i, some j⟩ ∈ t) :
    j ∈ t.map Visit.place ∧ g.joined j i = true := by
  induction ht with
  | root => simp at h
  | branch _ hu _ hjoined ih =>
    rcases List.mem_cons.mp h with heq | h
    · cases heq
      exact ⟨List.mem_cons_of_mem _ hu, hjoined⟩
    · exact ⟨List.mem_cons_of_mem _ (ih h).1, (ih h).2⟩

theorem Tree.joined_of_branch (ht : g.Tree root t) (hg : g.Undirected) (h : Branch t i j) :
    g.joined i j = true := by
  rcases h with h | h
  · exact hg.symm j i (ht.parent h).2
  · exact (ht.parent h).2

/-- A way along branches, with no place twice. -/
structure Route (t : List Visit) (i j : Nat) (path : List Nat) : Prop where
  nodup : path.Nodup
  subset : path ⊆ t.map Visit.place
  chain : path.IsChain (Branch t)
  head : path.head? = some i
  last : path.getLast? = some j

theorem Route.symm {path : List Nat} (h : Route t i j path) : Route t j i path.reverse where
  nodup := List.nodup_reverse.mpr h.nodup
  subset := fun k hk => h.subset (List.mem_reverse.mp hk)
  chain := List.isChain_reverse.mpr (h.chain.imp fun _ _ hbranch => hbranch.symm)
  head := by rw [List.head?_reverse, h.last]
  last := by rw [List.getLast?_reverse, h.head]

theorem Route.cons {path : List Nat} (h : Route t i j path) (v : Visit) :
    Route (v :: t) i j path where
  nodup := h.nodup
  subset := fun _ hk => List.mem_cons_of_mem _ (h.subset hk)
  chain := h.chain.imp fun _ _ hbranch => hbranch.cons v
  head := h.head
  last := h.last

theorem Route.prepend {path : List Nat} (h : Route t u j path) (hv : v ∉ t.map Visit.place) :
    Route (⟨v, some u⟩ :: t) v j (v :: path) := by
  obtain ⟨rest, rfl⟩ := List.head?_eq_some_iff.mp h.head
  refine ⟨List.nodup_cons.mpr ⟨fun hmem => hv (h.subset hmem), h.nodup⟩, fun k hk => ?_,
    List.isChain_cons_cons.mpr ⟨Or.inl List.mem_cons_self, (h.cons _).chain⟩, rfl, ?_⟩
  · rcases List.mem_cons.mp hk with rfl | hk
    · exact List.mem_cons_self
    · exact List.mem_cons_of_mem _ (h.subset hk)
  · rw [List.getLast?_cons_cons, h.last]

theorem Tree.exists_route (ht : g.Tree root t) (hi : i ∈ t.map Visit.place)
    (hj : j ∈ t.map Visit.place) : ∃ path, Route t i j path := by
  induction ht generalizing i j with
  | root =>
    cases List.mem_singleton.mp hi
    cases List.mem_singleton.mp hj
    exact ⟨[root], List.nodup_singleton root, List.Subset.refl _,
      List.isChain_singleton root, rfl, rfl⟩
  | @branch t u v _ hu hv _ ih =>
    have hnew : ∀ k ∈ t.map Visit.place, ∃ path, Route (⟨v, some u⟩ :: t) v k path := by
      intro k hk
      obtain ⟨path, hpath⟩ := ih hu hk
      exact ⟨v :: path, hpath.prepend hv⟩
    rw [List.map_cons, List.mem_cons] at hi hj
    rcases hi with rfl | hi <;> rcases hj with rfl | hj
    · exact ⟨[j], List.nodup_singleton j, by simp, List.isChain_singleton j, rfl, rfl⟩
    · exact hnew j hj
    · obtain ⟨path, hpath⟩ := hnew i hi
      exact ⟨path.reverse, hpath.symm⟩
    · obtain ⟨path, hpath⟩ := ih hi hj
      exact ⟨path, hpath.cons _⟩

/-- An edge between visited places that is not a branch closes a cycle. -/
theorem Tree.exists_cycle (ht : g.Tree root t) (hg : g.Undirected) (hl : g.Loopless)
    (hi : i ∈ t.map Visit.place) (hj : j ∈ t.map Visit.place) (hjoined : g.joined i j = true)
    (hbranch : ¬Branch t i j) : ∃ cycle, g.IsCycle cycle := by
  obtain ⟨path, hpath⟩ := ht.exists_route hi hj
  refine ⟨path, ?_, hpath.nodup, hpath.chain.imp fun _ _ => ht.joined_of_branch hg, ?_⟩
  · obtain ⟨rest, rfl⟩ := List.head?_eq_some_iff.mp hpath.head
    rcases rest with _ | ⟨k, _ | _⟩
    · cases hpath.last
      simp [hl i] at hjoined
    · cases hpath.last
      exact absurd (List.isChain_cons_cons.mp hpath.chain).1 hbranch
    · simp
  · intro first hfirst last hlast
    rw [hpath.head] at hfirst
    rw [hpath.last] at hlast
    cases hfirst
    cases hlast
    exact hg.symm i j hjoined

/-- Of the visited places in a list, the last one visited leads to no other of them. -/
theorem Tree.exists_last (ht : g.Tree root t) {ps : List Nat} (hi : i ∈ t.map Visit.place)
    (hps : i ∈ ps) : ∃ v ∈ t, v.place ∈ ps ∧ ∀ j ∈ ps, ⟨j, some v.place⟩ ∉ t := by
  induction ht generalizing i with
  | root =>
    cases List.mem_singleton.mp hi
    exact ⟨⟨root, none⟩, List.mem_cons_self, hps, fun j _ hj => by simp at hj⟩
  | @branch t u v ht hu hv _ ih =>
    by_cases hvps : v ∈ ps
    · refine ⟨⟨v, some u⟩, List.mem_cons_self, hvps, fun j _ hj => ?_⟩
      rcases List.mem_cons.mp hj with heq | hj
      · have hparent : v = u := Option.some.inj (congrArg Visit.parent heq)
        exact hv (hparent ▸ hu)
      · exact hv (ht.parent hj).1
    · have hold : i ∈ t.map Visit.place := by
        rcases List.mem_cons.mp hi with rfl | hi
        · exact absurd hps hvps
        · exact hi
      obtain ⟨w, hw, hwps, hlast⟩ := ih hold hps
      refine ⟨w, List.mem_cons_of_mem _ hw, hwps, fun j hj hmem => ?_⟩
      rcases List.mem_cons.mp hmem with heq | hmem
      · cases heq
        exact hvps hj
      · exact hlast j hj hmem

/-- A tree that has all edges of its places has no place on a cycle. -/
theorem Tree.not_mem_cycle (ht : g.Tree root t) (hg : g.Undirected)
    (hcomplete : ∀ v ∈ t, ∀ j, g.joined v.place j = true → Branch t v.place j)
    (hcycle : g.IsCycle cycle) (hi : i ∈ t.map Visit.place) : i ∉ cycle := by
  intro hmem
  obtain ⟨v, hv, hplace, hlast⟩ := ht.exists_last hi hmem
  obtain ⟨a, ha, b, hb, hab, hva, hvb⟩ := hcycle.exists_neighbours hg hplace
  have hparent : ∀ j ∈ cycle, g.joined v.place j = true → v.parent = some j := by
    intro j hj hjoined
    rcases hcomplete v hv j hjoined with hbranch | hbranch
    · rw [ht.eq_of_place_eq hv hbranch rfl]
    · exact absurd hbranch (hlast j hj)
  have heq : some a = some b := (hparent a ha hva).symm.trans (hparent b hb hvb)
  exact hab (Option.some.inj heq)

end Tree

section Walk

variable {root : Nat} {old js marked : List Nat} {t stack : List Visit} {e : Visit}

/-- The state of a walk outside the places `old`. The visits form a tree, and an edge at a visited
place is a branch of it or still waits. -/
structure Walking (g : JoinGraph) (root : Nat) (old : List Nat) (waits : Visit → Nat → Prop)
    (t stack : List Visit) (marked : List Nat) : Prop where
  tree : g.Tree root t
  fresh : ∀ i ∈ t.map Visit.place, i ∉ old
  mem_marked : ∀ i, i ∈ marked ↔ i ∈ t.map Visit.place ∨ i ∈ old
  stacked : ∀ v ∈ stack, v ∈ t
  nodup : stack.Nodup
  unused : ∀ v i, waits v i → ⟨i, some v.place⟩ ∉ t
  complete : ∀ v ∈ t, ∀ i, g.joined v.place i = true → Branch t v.place i ∨ waits v i

/-- Between two visits, the edges of the stacked places wait. -/
def WaitsOn (stack : List Visit) (v : Visit) (_ : Nat) : Prop := v ∈ stack

/-- During the visit `e`, its edges to the places in `js` wait as well. -/
def WaitsFor (e : Visit) (js : List Nat) (stack : List Visit) (v : Visit) (i : Nat) : Prop :=
  v ∈ stack ∨ v = e ∧ i ∈ js

theorem WaitsFor.cons {v : Visit} (h : WaitsFor e js stack v i) : WaitsFor e (j :: js) stack v i :=
  h.imp_right fun hi => ⟨hi.1, List.mem_cons_of_mem j hi.2⟩

/-- The neighbours `js` of the place of `e` are still to be looked at. -/
structure Entering (g : JoinGraph) (root : Nat) (old : List Nat) (e : Visit) (js : List Nat)
    (t stack : List Visit) (marked : List Nat) : Prop
    extends g.Walking root old (WaitsFor e js stack) t stack marked where
  mem : e ∈ t
  not_stacked : e ∉ stack
  js_nodup : js.Nodup
  js_joined : ∀ j ∈ js, g.joined e.place j = true

theorem Walking.entering {rest : List Visit} (hg : g.Undirected)
    (h : g.Walking root old (WaitsOn (e :: rest)) t (e :: rest) marked) :
    g.Entering root old e (g.neighbours e.place) t rest marked where
  tree := h.tree
  fresh := h.fresh
  mem_marked := h.mem_marked
  stacked := fun v hv => h.stacked v (List.mem_cons_of_mem e hv)
  nodup := (List.nodup_cons.mp h.nodup).2
  unused := by
    rintro v i (hv | ⟨rfl, _⟩)
    · exact h.unused v i (List.mem_cons_of_mem e hv)
    · exact h.unused v i List.mem_cons_self
  complete := by
    intro v hv i hjoined
    refine (h.complete v hv i hjoined).imp_right fun hwaits => ?_
    rcases List.mem_cons.mp hwaits with rfl | hrest
    · exact Or.inr ⟨rfl, mem_neighbours.mpr ⟨hg.lt_size i _ (hg.symm _ i hjoined), hjoined⟩⟩
    · exact Or.inl hrest
  mem := h.stacked e List.mem_cons_self
  not_stacked := (List.nodup_cons.mp h.nodup).1
  js_nodup := List.nodup_range.filter _
  js_joined := fun j hj => (mem_neighbours.mp hj).2

namespace Entering

theorem walking (h : g.Entering root old e [] t stack marked) :
    g.Walking root old (WaitsOn stack) t stack marked := by
  refine { h.toWalking with unused := fun v i hv => h.unused v i (Or.inl hv), complete := ?_ }
  intro v hv i hjoined
  refine (h.complete v hv i hjoined).imp_right fun hwaits => ?_
  rcases hwaits with hstack | ⟨_, hnil⟩
  · exact hstack
  · cases hnil

theorem place_mem (h : g.Entering root old e js t stack marked) : e.place ∈ t.map Visit.place :=
  List.mem_map_of_mem h.mem

/-- The parent of the visited place is passed over: the edge to it is a branch. -/
theorem skip (h : g.Entering root old e (j :: js) t stack marked) (hparent : some j = e.parent) :
    g.Entering root old e js t stack marked where
  tree := h.tree
  fresh := h.fresh
  mem_marked := h.mem_marked
  stacked := h.stacked
  nodup := h.nodup
  unused := fun v i hwaits => h.unused v i hwaits.cons
  complete := by
    intro v hv i hjoined
    rcases h.complete v hv i hjoined with hbranch | hstack | ⟨rfl, hi⟩
    · exact Or.inl hbranch
    · exact Or.inr (Or.inl hstack)
    · rcases List.mem_cons.mp hi with rfl | hi
      · exact Or.inl (Or.inl (hparent ▸ hv))
      · exact Or.inr (Or.inr ⟨rfl, hi⟩)
  mem := h.mem
  not_stacked := h.not_stacked
  js_nodup := (List.nodup_cons.mp h.js_nodup).2
  js_joined := fun i hi => h.js_joined i (List.mem_cons_of_mem j hi)

/-- A neighbour with a mark that is not the parent closes a cycle. -/
theorem exists_cycle (h : g.Entering root old e (j :: js) t stack marked) (hg : g.Undirected)
    (hl : g.Loopless) (hold : ∀ i ∈ old, ∀ k, g.joined i k = true → k ∈ old)
    (hparent : some j ≠ e.parent) (hmarked : j ∈ marked) : ∃ cycle, g.IsCycle cycle := by
  have hjoined := h.js_joined j List.mem_cons_self
  have hvisited : j ∈ t.map Visit.place := by
    refine ((h.mem_marked j).mp hmarked).resolve_right fun hj => ?_
    exact h.fresh _ h.place_mem (hold j hj _ (hg.symm _ _ hjoined))
  refine h.tree.exists_cycle hg hl h.place_mem hvisited hjoined fun hbranch => ?_
  rcases hbranch with hbranch | hbranch
  · have heq := h.tree.eq_of_place_eq hbranch h.mem rfl
    exact hparent (congrArg Visit.parent heq)
  · exact h.unused e j (Or.inr ⟨rfl, List.mem_cons_self⟩) hbranch

theorem not_visited (h : g.Entering root old e (j :: js) t stack marked) (hmarked : j ∉ marked) :
    j ∉ t.map Visit.place :=
  fun hj => hmarked ((h.mem_marked j).mpr (Or.inl hj))

/-- The new branch leads from `e`, which has no other edge to `j` and is not on the stack. -/
theorem not_waitsFor (h : g.Entering root old e (j :: js) t stack marked) (hmarked : j ∉ marked)
    {v : Visit} (hv : v.place = e.place) : ¬WaitsFor e js (⟨j, some e.place⟩ :: stack) v j := by
  rintro (hstack | ⟨_, hjs⟩)
  · rcases List.mem_cons.mp hstack with rfl | hstack
    · have hj : j = e.place := hv
      exact h.not_visited hmarked (hj ▸ h.place_mem)
    · exact h.not_stacked (h.tree.eq_of_place_eq (h.stacked v hstack) h.mem hv ▸ hstack)
  · exact (List.nodup_cons.mp h.js_nodup).1 hjs

/-- A neighbour without a mark is a new place of the tree. -/
theorem push (h : g.Entering root old e (j :: js) t stack marked) (hmarked : j ∉ marked) :
    g.Entering root old e js (⟨j, some e.place⟩ :: t) (⟨j, some e.place⟩ :: stack)
      (j :: marked) where
  tree := .branch h.tree h.place_mem (h.not_visited hmarked) (h.js_joined j List.mem_cons_self)
  fresh := by
    intro i hi hiold
    rcases List.mem_cons.mp hi with rfl | hi
    · exact hmarked ((h.mem_marked _).mpr (Or.inr hiold))
    · exact h.fresh i hi hiold
  mem_marked := by
    intro i
    rw [List.mem_cons, List.map_cons, List.mem_cons, h.mem_marked, or_assoc]
  stacked := by
    intro v hv
    rcases List.mem_cons.mp hv with rfl | hv
    · exact List.mem_cons_self
    · exact List.mem_cons_of_mem _ (h.stacked v hv)
  nodup := by
    refine List.nodup_cons.mpr ⟨fun hmem => ?_, h.nodup⟩
    exact h.not_visited hmarked (List.mem_map_of_mem (h.stacked _ hmem))
  unused := by
    intro v i hwaits hmem
    rcases List.mem_cons.mp hmem with heq | hmem
    · have hi : i = j := congrArg Visit.place heq
      have hv : v.place = e.place := Option.some.inj (congrArg Visit.parent heq)
      exact h.not_waitsFor hmarked hv (hi ▸ hwaits)
    · rcases hwaits with hstack | hjs
      · rcases List.mem_cons.mp hstack with rfl | hstack
        · exact h.not_visited hmarked (h.tree.parent hmem).1
        · exact h.unused v i (Or.inl hstack) hmem
      · exact h.unused v i (WaitsFor.cons (Or.inr hjs)) hmem
  complete := by
    intro v hv i hjoined
    rcases List.mem_cons.mp hv with rfl | hv
    · exact Or.inr (Or.inl List.mem_cons_self)
    · rcases h.complete v hv i hjoined with hbranch | hstack | ⟨rfl, hi⟩
      · exact Or.inl (hbranch.cons _)
      · exact Or.inr (Or.inl (List.mem_cons_of_mem _ hstack))
      · rcases List.mem_cons.mp hi with rfl | hi
        · exact Or.inl (Or.inr List.mem_cons_self)
        · exact Or.inr (Or.inr ⟨rfl, hi⟩)
  mem := List.mem_cons_of_mem _ h.mem
  not_stacked := by
    intro hmem
    rcases List.mem_cons.mp hmem with heq | hmem
    · have hj : e.place = j := congrArg Visit.place heq
      exact h.not_visited hmarked (hj ▸ h.place_mem)
    · exact h.not_stacked hmem
  js_nodup := (List.nodup_cons.mp h.js_nodup).2
  js_joined := fun i hi => h.js_joined i (List.mem_cons_of_mem j hi)

end Entering

/-- Looking at the neighbours of a place ends with a cycle or with all its edges in the tree. -/
theorem Entering.enter_spec (h : g.Entering root old e js t stack marked) (hg : g.Undirected)
    (hl : g.Loopless) (hold : ∀ i ∈ old, ∀ k, g.joined i k = true → k ∈ old) :
    (enter e js stack marked = none ∧ ∃ cycle, g.IsCycle cycle) ∨
      ∃ t' stack' marked', enter e js stack marked = some (stack', marked') ∧
        g.Walking root old (WaitsOn stack') t' stack' marked' := by
  induction js generalizing t stack marked with
  | nil => exact Or.inr ⟨t, stack, marked, rfl, h.walking⟩
  | cons j js ih =>
    rw [enter]
    by_cases hparent : some j = e.parent
    · rw [if_pos hparent]
      exact ih (h.skip hparent)
    · by_cases hmarked : j ∈ marked
      · rw [if_neg hparent, if_pos hmarked]
        exact Or.inl ⟨rfl, h.exists_cycle hg hl hold hparent hmarked⟩
      · rw [if_neg hparent, if_neg hmarked]
        exact ih (h.push hmarked)

/-- A walk ends with a cycle or with an empty stack, when no edge waits. -/
theorem Walking.walk_spec (h : g.Walking root old (WaitsOn stack) t stack marked)
    (hg : g.Undirected) (hl : g.Loopless)
    (hold : ∀ i ∈ old, ∀ k, g.joined i k = true → k ∈ old) :
    (g.walk stack marked = none ∧ ∃ cycle, g.IsCycle cycle) ∨
      ∃ t' marked', g.walk stack marked = some marked' ∧
        g.Walking root old (WaitsOn []) t' [] marked' := by
  fun_induction walk g stack marked generalizing t with
  | case1 marked => exact Or.inr ⟨t, marked, rfl, h⟩
  | case2 marked e rest hnone =>
    rcases (h.entering hg).enter_spec hg hl hold with hcycle | ⟨_, _, _, hsome, _⟩
    · exact Or.inl ⟨rfl, hcycle.2⟩
    · rw [hnone] at hsome
      cases hsome
  | case3 marked e rest stack' marked' hstep _ ih =>
    rcases (h.entering hg).enter_spec hg hl hold with hcycle | ⟨t', _, _, hsome, h'⟩
    · rw [hstep] at hcycle
      cases hcycle.1
    · rw [hstep] at hsome
      cases hsome
      exact ih h'

/-- The marked places are whole components without a cycle. -/
structure Settled (g : JoinGraph) (marked : List Nat) : Prop where
  closed : ∀ i ∈ marked, ∀ j, g.joined i j = true → j ∈ marked
  acyclic : ∀ cycle, g.IsCycle cycle → ∀ i ∈ cycle, i ∉ marked

theorem Walking.settled (h : g.Walking root old (WaitsOn []) t [] marked) (hg : g.Undirected)
    (hold : g.Settled old) : g.Settled marked := by
  have hcomplete : ∀ v ∈ t, ∀ j, g.joined v.place j = true → Branch t v.place j := by
    intro v hv j hjoined
    refine (h.complete v hv j hjoined).resolve_right fun hwaits => ?_
    cases hwaits
  refine ⟨fun i hi j hjoined => ?_, fun cycle hcycle i hi hmarked => ?_⟩
  · rw [h.mem_marked] at hi ⊢
    refine hi.imp (fun hvisited => ?_) fun hi => hold.closed i hi j hjoined
    obtain ⟨v, hv, rfl⟩ := List.mem_map.mp hvisited
    rcases hcomplete v hv j hjoined with hbranch | hbranch
    · exact (h.tree.parent hbranch).1
    · exact List.mem_map_of_mem hbranch
  · rcases (h.mem_marked i).mp hmarked with hvisited | hi'
    · exact h.tree.not_mem_cycle hg hcomplete hcycle hvisited hi
    · exact hold.acyclic cycle hcycle i hi hi'

theorem Walking.start (hroot : root ∉ old) :
    g.Walking root old (WaitsOn [⟨root, none⟩]) [⟨root, none⟩] [⟨root, none⟩] (root :: old) where
  tree := .root
  fresh := by simpa using hroot
  mem_marked := by simp
  stacked := fun _ hv => hv
  nodup := List.nodup_singleton _
  unused := by simp
  complete := fun _ hv _ _ => Or.inr hv

/-- The walks from all roots end with a cycle or with all roots marked. -/
theorem Settled.walkAll_spec (h : g.Settled marked) (hg : g.Undirected) (hl : g.Loopless)
    (roots : List Nat) :
    (g.walkAll roots marked = false ∧ ∃ cycle, g.IsCycle cycle) ∨
      (g.walkAll roots marked = true ∧ ∃ marked',
        marked ⊆ marked' ∧ roots ⊆ marked' ∧ g.Settled marked') := by
  induction roots generalizing marked with
  | nil => exact Or.inr ⟨rfl, marked, List.Subset.refl _, List.nil_subset _, h⟩
  | cons root roots ih =>
    rw [walkAll]
    by_cases hroot : root ∈ marked
    · rw [if_pos hroot]
      refine (ih h).imp_right fun hend => ?_
      obtain ⟨htrue, marked', hle, hroots, h'⟩ := hend
      exact ⟨htrue, marked', hle, List.cons_subset.mpr ⟨hle hroot, hroots⟩, h'⟩
    · rw [if_neg hroot]
      rcases (Walking.start hroot).walk_spec hg hl h.closed
        with ⟨hnone, hcycle⟩ | ⟨t, marked', hsome, hwalk⟩
      · rw [hnone]
        exact Or.inl ⟨rfl, hcycle⟩
      · rw [hsome]
        refine (ih (hwalk.settled hg h)).imp_right fun hend => ?_
        obtain ⟨htrue, marked'', hle, hroots, h'⟩ := hend
        have hold : marked ⊆ marked'' := fun i hi => hle ((hwalk.mem_marked i).mpr (Or.inr hi))
        have hmem : root ∈ marked'' :=
          hle ((hwalk.mem_marked root).mpr (Or.inl hwalk.tree.root_mem))
        exact ⟨htrue, marked'', hold, List.cons_subset.mpr ⟨hmem, hroots⟩, h'⟩

end Walk

/-- A join graph is acyclic exactly if no three or more distinct places are joined in a cycle,
whatever the labels of the edges. -/
theorem isAcyclic_iff (places conditions : List (List VarId)) :
    (ofPlaces places conditions).isAcyclic = true ↔
      ¬∃ cycle, (ofPlaces places conditions).IsCycle cycle := by
  have hg := undirected_ofPlaces places conditions
  generalize hgraph : ofPlaces places conditions = g at hg ⊢
  have hl : g.Loopless := hgraph ▸ loopless_ofPlaces places conditions
  have hempty : g.Settled [] := ⟨by simp, by simp⟩
  rw [isAcyclic, Bool.or_eq_true, decide_eq_true_eq]
  constructor
  · rintro hacyclic ⟨cycle, hcycle⟩
    have hwalk := hacyclic.resolve_left (Nat.not_le.mpr (hcycle.two_lt_size hg))
    rcases hempty.walkAll_spec hg hl g.places with ⟨hfalse, _⟩ | ⟨_, marked, _, hplaces, hmarked⟩
    · rw [hwalk] at hfalse
      cases hfalse
    · -- the walks have marked all places of the cycle
      obtain ⟨i, hi⟩ :=
        List.exists_mem_of_length_pos (Nat.lt_of_lt_of_le (by decide) hcycle.three_le)
      exact hmarked.acyclic cycle hcycle i hi (hplaces (hcycle.subset_places hg hi))
  · intro hnone
    rcases hempty.walkAll_spec hg hl g.places with ⟨_, hcycle⟩ | ⟨htrue, _⟩
    · exact absurd hcycle hnone
    · exact Or.inr htrue

end ConstraintRules.JoinGraph
