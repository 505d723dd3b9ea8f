import ConstraintRules.Proofs.Building
import ConstraintRules.Proofs.JoinClasses

/-! Independent parts of a join. Occurrences in different components share no
variable, and no condition asks about both. -/

namespace ConstraintRules

namespace Program

variable {p : Program} {r : Rule}

/-- The variables that a condition of a rule asks about: those of a conjunct of the guard, or
those of a negative head and of its guard. -/
inductive Condition (p : Program) (r : Rule) : (VarId → Prop) → Prop where
  | guard {g : GuardConjunct} : g ∈ r.guard → Condition p r fun v => v ∈ g.vars
  | negative {n : Nat} : n < r.negatives.length → Condition p r fun v =>
      (∃ u, p.InHead r (.negative n) u ∧ v ∈ u.args) ∨ ∃ g ∈ r.ownGuard (.negative n), v ∈ g.vars

/-- Two occurrences of the positive head share a variable, or a condition
asks about variables of both. -/
def Joins (p : Program) (r : Rule) (o u : Occurrence) : Prop :=
  p.InHead r .positive o ∧ p.InHead r .positive u ∧
    ((∃ v ∈ o.args, v ∈ u.args) ∨
      ∃ asks, p.Condition r asks ∧ (∃ v ∈ o.args, asks v) ∧ ∃ v ∈ u.args, asks v)

theorem Arranged.negativeVars?_eq (h : p.Arranged) (hr : r ∈ p.rules) {k : Nat} {n : NegativeHead}
    (hn : r.negatives[k]? = some n) : ∃ vars, p.negativeVars? n = some vars ∧ ∀ v, v ∈ vars ↔
      (∃ u, p.InHead r (.negative k) u ∧ v ∈ u.args) ∨
        ∃ g ∈ r.ownGuard (.negative k), v ∈ g.vars := by
  have hpart : r.part (.negative k) = n.occurrences := by
    rw [Rule.part, hn, Option.map_some, Option.getD_some]
  have hguard : r.ownGuard (.negative k) = n.guard := by
    rw [Rule.ownGuard, hn, Option.map_some, Option.getD_some]
  obtain ⟨us, hus, _, hmem⟩ := h.resolve?_eq_some hr fun id hid =>
    List.mem_append_right _ (List.mem_flatMap.mpr ⟨n, List.mem_of_getElem? hn, hid⟩)
  have hin : ∀ u, u ∈ us ↔ p.InHead r (.negative k) u := by
    intro u
    rw [hmem, ← hpart]
    constructor
    · intro hu
      exact (h.mem_part hu.1 hr).mp hu.2
    · intro hu
      exact ⟨hu.1, (h.mem_part hu.1 hr).mpr hu⟩
  refine ⟨_, by rw [negativeVars?, hus, Option.map_some], fun v => ?_⟩
  rw [List.mem_append, List.mem_flatMap, List.mem_flatMap, hguard]
  simp only [hin]

/-- The places are the occurrences of the positive head, in order, and the
conditions are those of the rule. -/
structure Depicted (p : Program) (r : Rule) (os : List Occurrence)
    (conditions : List (List VarId)) : Prop where
  length_eq : os.length = r.head.length
  place : ∀ i o, os[i]? = some o ↔ p.InHead r .positive o ∧ o.index = i
  exists_condition : ∀ asks, p.Condition r asks → ∃ c ∈ conditions, ∀ v, v ∈ c ↔ asks v
  condition : ∀ c ∈ conditions, ∃ asks, p.Condition r asks ∧ ∀ v, v ∈ c ↔ asks v

theorem Arranged.joinGraph?_eq (h : p.Arranged) (hr : r ∈ p.rules) : ∃ os conditions,
    p.joinGraph? r = some (.ofPlaces (os.map Occurrence.args) conditions) ∧
      p.Depicted r os conditions := by
  obtain ⟨os, hos, hlength, hplace⟩ := h.head_listed hr
  have hnegative : ∀ n ∈ r.negatives, ∃ vars, p.negativeVars? n = some vars := by
    intro n hn
    obtain ⟨k, hk⟩ := List.mem_iff_getElem?.mp hn
    obtain ⟨vars, hvars, _⟩ := h.negativeVars?_eq hr hk
    exact ⟨vars, hvars⟩
  obtain ⟨negatives, hnegatives, _, hnegs⟩ := exists_mapM_eq_some hnegative
  refine ⟨os, r.guard.map GuardConjunct.vars ++ negatives, ?_, hlength, hplace, ?_, ?_⟩
  · simp only [joinGraph?, hos, hnegatives, Option.bind_eq_bind, Option.bind_some]
  · intro asks hasks
    cases hasks with
    | guard hg => exact ⟨_, List.mem_append_left _ (List.mem_map_of_mem hg), fun v => Iff.rfl⟩
    | @negative k hk =>
      have hn := List.getElem?_eq_getElem hk
      obtain ⟨vars, hvars, hiff⟩ := h.negativeVars?_eq hr hn
      exact ⟨vars, List.mem_append_right _ ((hnegs vars).mpr ⟨_, List.mem_of_getElem? hn, hvars⟩),
        hiff⟩
  · intro c hc
    rcases List.mem_append.mp hc with hc | hc
    · obtain ⟨g, hg, rfl⟩ := List.mem_map.mp hc
      exact ⟨_, .guard hg, fun v => Iff.rfl⟩
    · obtain ⟨n, hn, hvars⟩ := (hnegs c).mp hc
      obtain ⟨k, hk⟩ := List.mem_iff_getElem?.mp hn
      obtain ⟨vars, hvars', hiff⟩ := h.negativeVars?_eq hr hk
      rw [hvars] at hvars'
      cases hvars'
      exact ⟨_, .negative (List.getElem?_eq_some_iff.mp hk).1, hiff⟩

namespace Depicted

variable {os : List Occurrence} {conditions : List (List VarId)} (h : p.Depicted r os conditions)
  {o u : Occurrence}

include h

theorem tied_iff (ho : p.InHead r .positive o) (hu : p.InHead r .positive u) :
    JoinGraph.Tied conditions o.args u.args ↔ p.Joins r o u := by
  constructor
  · rintro (hshared | ⟨c, hc, ⟨v, hv, hvo⟩, w, hw, hwu⟩)
    · exact ⟨ho, hu, Or.inl hshared⟩
    · obtain ⟨asks, hasks, hiff⟩ := h.condition c hc
      exact ⟨ho, hu, Or.inr ⟨asks, hasks, ⟨v, hvo, (hiff v).mp hv⟩, w, hwu, (hiff w).mp hw⟩⟩
  · rintro ⟨_, _, hshared | ⟨asks, hasks, ⟨v, hvo, hv⟩, w, hwu, hw⟩⟩
    · exact Or.inl hshared
    · obtain ⟨c, hc, hiff⟩ := h.exists_condition asks hasks
      exact Or.inr ⟨c, hc, ⟨v, (hiff v).mpr hv, hvo⟩, w, (hiff w).mpr hw, hwu⟩

theorem listsHead : p.ListsHead r os := h.place

/-- A chain of edges is followed from place to place, each of which is that of an occurrence. -/
theorem joins_of_linked {j : Nat} (ho : p.InHead r .positive o)
    (hj : JoinGraph.Linked (.ofPlaces (os.map Occurrence.args) conditions) o.index j) :
    ∀ u, p.InHead r .positive u → u.index = j → Relation.ReflTransGen (p.Joins r) o u := by
  induction hj with
  | refl =>
    intro u hu he
    rw [h.listsHead.eq_of_index_eq hu ho he]
  | tail _ hjoined ih =>
    intro u hu he
    obtain ⟨_, a, b, ha, hb, hab⟩ := JoinGraph.joined_ofPlaces.mp hjoined
    obtain ⟨x, hx, hxi, rfl⟩ := h.listsHead.exists_of_getElem?_args ha
    rw [← he, h.listsHead.getElem?_args hu] at hb
    cases hb
    exact (ih x hx hxi).tail ((h.tied_iff hx hu).mp hab)

theorem linked_of_joins (hchain : Relation.ReflTransGen (p.Joins r) o u) :
    JoinGraph.Linked (.ofPlaces (os.map Occurrence.args) conditions) o.index u.index := by
  induction hchain with
  | refl => exact .refl
  | @tail x w _ hjoins ih =>
    have hx := hjoins.1
    have hw := hjoins.2.1
    by_cases he : x.index = w.index
    · rwa [← he]
    · have htied := (h.tied_iff hx hw).mpr hjoins
      have hargs := h.listsHead.getElem?_args hx
      exact .tail ih
        (JoinGraph.joined_ofPlaces.mpr ⟨he, _, _, hargs, h.listsHead.getElem?_args hw, htied⟩)

theorem linked_iff (ho : p.InHead r .positive o) (hu : p.InHead r .positive u) :
    JoinGraph.Linked (.ofPlaces (os.map Occurrence.args) conditions) o.index u.index ↔
      Relation.ReflTransGen (p.Joins r) o u :=
  ⟨fun hlinked => h.joins_of_linked ho hlinked u hu rfl, h.linked_of_joins⟩

end Depicted

/-- The components of the join graph are the parts of the positive head that no variable and no
condition connects. -/
theorem components_independent (steps : List BuildStep) {r : Rule} (hr : r ∈ (build steps).rules)
    (hlength : 3 ≤ r.head.length) : ∃ g, (build steps).joinGraph? r = some g ∧
      g.components.flatten.Perm (List.range r.head.length) ∧
      (∀ c ∈ g.components, ∀ c' ∈ g.components, c ≠ c' → ∀ o u, (build steps).InHead r .positive o →
        (build steps).InHead r .positive u → o.index ∈ c → u.index ∈ c' →
          ∀ v ∈ o.args, v ∉ u.args) ∧
      (∀ asks, (build steps).Condition r asks →
        ∃ c ∈ g.components, ∀ o, (build steps).InHead r .positive o →
        (∃ v ∈ o.args, asks v) → o.index ∈ c) ∧
      ∀ o u, (build steps).InHead r .positive o → (build steps).InHead r .positive u →
        ((∃ c ∈ g.components, o.index ∈ c ∧ u.index ∈ c) ↔
          Relation.ReflTransGen ((build steps).Joins r) o u) := by
  obtain ⟨os, conditions, hgraph, h⟩ := (build_wellFormed steps).joinGraph?_eq hr
  generalize hofPlaces : JoinGraph.ofPlaces (os.map Occurrence.args) conditions = g at hgraph
  have hg : g.Undirected := hofPlaces ▸ JoinGraph.undirected_ofPlaces _ _
  have hsize : g.size = r.head.length := by
    rw [← hofPlaces, JoinGraph.ofPlaces, List.length_map, h.length_eq]
  have hlarge : 2 < g.size := by omega
  have hplace : ∀ o, (build steps).InHead r .positive o → o.index < g.size := by
    intro o ho
    rw [hsize, ← h.length_eq]
    exact (List.getElem?_eq_some_iff.mp ((h.place o.index o).mpr ⟨ho, rfl⟩)).1
  have hlinked : ∀ o u, (build steps).InHead r .positive o → (build steps).InHead r .positive u →
      (g.Linked o.index u.index ↔ Relation.ReflTransGen ((build steps).Joins r) o u) := by
    intro o u ho hu
    rw [← hofPlaces]
    exact h.linked_iff ho hu
  have hsame : ∀ o u, (build steps).InHead r .positive o → (build steps).InHead r .positive u →
      ((∃ c ∈ g.components, o.index ∈ c ∧ u.index ∈ c) ↔
        Relation.ReflTransGen ((build steps).Joins r) o u) :=
    fun o u ho hu => (hg.same_component hlarge (hplace o ho)).trans (hlinked o u ho hu)
  have hclass : ∀ c ∈ g.components, g.IsClass c := fun c => (hg.mem_components_iff hlarge).mp
  refine ⟨g, hgraph, hsize ▸ hg.flatten_components_perm hlarge, ?_, ?_, hsame⟩
  · intro c hc c' hc' hne o u ho hu hoc huc v hvo hvu
    obtain ⟨d, hd, hod, hud⟩ := (hsame o u ho hu).mpr (.single ⟨ho, hu, Or.inl ⟨v, hvo, hvu⟩⟩)
    have hcd := (hclass c hc).eq_of_mem (hclass d hd) hg hoc hod
    have hcd' := (hclass c' hc').eq_of_mem (hclass d hd) hg huc hud
    exact hne (hcd.trans hcd'.symm)
  · intro asks hasks
    by_cases hsome : ∃ o, (build steps).InHead r .positive o ∧ ∃ v ∈ o.args, asks v
    · obtain ⟨o, ho, hoasks⟩ := hsome
      obtain ⟨c, hc, hoc⟩ := hg.exists_component hlarge (hplace o ho)
      refine ⟨c, hc, fun u hu huasks => ?_⟩
      rw [(hclass c hc).mem_iff hg hoc, hlinked o u ho hu]
      exact .single ⟨ho, hu, Or.inr ⟨asks, hasks, hoasks, huasks⟩⟩
    · obtain ⟨c, hc, _⟩ := hg.exists_component hlarge (Nat.lt_trans Nat.two_pos hlarge)
      exact ⟨c, hc, fun u hu huasks => absurd ⟨u, hu, huasks⟩ hsome⟩

/-- Three occurrences without a common variable, two of which a guard compares. -/
def compared : Program :=
  build [.ensure "p" 1, .ensure "q" 1, .ensure "r" 1,
    .rule "compare" [.kept ⟨0⟩ ["X"], .removed ⟨1⟩ ["Y"], .kept ⟨2⟩ ["Z"], .guardEqual "X" "Y"]]

theorem compared_components :
    ∃ r ∈ compared.rules, 3 ≤ r.head.length ∧ ∃ g, compared.joinGraph? r = some g ∧
    g.components.flatten.Perm [0, 1, 2] ∧ ∃ c ∈ g.components, 0 ∈ c ∧ 1 ∈ c := by
  have hrule : ∃ r ∈ compared.rules, 3 = r.head.length ∧ r.id = ⟨0⟩ ∧ .equal ⟨0⟩ ⟨1⟩ ∈ r.guard := by
    decide
  have hfirst : ∃ o ∈ compared.occurrences,
      o.rule = ⟨0⟩ ∧ o.head = .positive ∧ o.index = 0 ∧ ⟨0⟩ ∈ o.args := by decide
  have hsecond : ∃ u ∈ compared.occurrences,
      u.rule = ⟨0⟩ ∧ u.head = .positive ∧ u.index = 1 ∧ ⟨1⟩ ∈ u.args := by
    decide
  obtain ⟨r, hr, hlength, hid, hguard⟩ := hrule
  obtain ⟨o, ho, horule, hohead, hoindex, hoargs⟩ := hfirst
  obtain ⟨u, hu, hurule, huhead, huindex, huargs⟩ := hsecond
  obtain ⟨g, hg, hperm, _, hcondition, _⟩ := components_independent _ hr (Nat.le_of_eq hlength)
  obtain ⟨c, hc, hin⟩ := hcondition _ (.guard hguard)
  have hzero := hin o ⟨ho, horule.trans hid.symm, hohead⟩ ⟨_, hoargs, by decide⟩
  have hone := hin u ⟨hu, hurule.trans hid.symm, huhead⟩ ⟨_, huargs, by decide⟩
  rw [← hlength] at hperm
  exact ⟨r, hr, (Nat.le_of_eq hlength), g, hg, hperm, c, hc, hoindex ▸ hzero, huindex ▸ hone⟩

end Program

end ConstraintRules
