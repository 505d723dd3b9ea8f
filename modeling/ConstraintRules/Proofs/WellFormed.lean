import ConstraintRules.Program.Basic
import Mathlib.Data.List.Nodup

/-! Well-formed programs, in which nothing dangles and every occurrence stands
where it says. The bare program alone decides this. -/

namespace ConstraintRules

/-- The occurrences of one part of the head, in order. -/
def Rule.part (r : Rule) : HeadPart → List OccurrenceId
  | .positive => r.head
  | .negative n => (r.negatives[n]?.map NegativeHead.occurrences).getD []

/-- The guard that a part of the head has to itself. -/
def Rule.ownGuard (r : Rule) : HeadPart → List GuardConjunct
  | .positive => r.guard
  | .negative n => (r.negatives[n]?.map NegativeHead.guard).getD []

theorem Rule.mem_occurrences {r : Rule} {id : OccurrenceId} :
    id ∈ r.occurrences ↔ ∃ (part : HeadPart) (i : Nat), (r.part part)[i]? = some id := by
  constructor
  · intro h
    rcases List.mem_append.mp h with h | h
    · obtain ⟨i, hi⟩ := List.mem_iff_getElem?.mp h
      exact ⟨.positive, i, hi⟩
    · obtain ⟨n, hn, hid⟩ := List.mem_flatMap.mp h
      obtain ⟨k, hk⟩ := List.mem_iff_getElem?.mp hn
      obtain ⟨i, hi⟩ := List.mem_iff_getElem?.mp hid
      exact ⟨.negative k, i, by simpa [part, hk] using hi⟩
  · rintro ⟨part, i, hi⟩
    cases part with
    | positive => exact List.mem_append_left _ (List.mem_of_getElem? hi)
    | negative k =>
      cases hk : r.negatives[k]? with
      | none => simp [part, hk] at hi
      | some n =>
        simp only [part, hk, Option.map_some, Option.getD_some] at hi
        exact List.mem_append_right _
          (List.mem_flatMap.mpr ⟨n, List.mem_of_getElem? hk, List.mem_of_getElem? hi⟩)

/-- What a constraint, a rule and an occurrence contribute to the arrangement of a program. -/
def Constraint.shape (c : Constraint) : ConstraintId × Nat := (c.id, c.arity)

def Rule.shape (r : Rule) : RuleId × List OccurrenceId × List (List OccurrenceId) :=
  (r.id, r.head, r.negatives.map NegativeHead.occurrences)

def Occurrence.shape (o : Occurrence) :
    OccurrenceId × ConstraintId × RuleId × HeadPart × Nat × Nat :=
  (o.id, o.constraint, o.rule, o.head, o.index, o.arity)

theorem Rule.part_eq_of_shape {r s : Rule} (h : s.shape = r.shape) (part : HeadPart) :
    s.part part = r.part part := by
  cases part with
  | positive => exact congrArg (fun t => t.2.1) h
  | negative n =>
    have hn := congrArg (fun t => t.2.2[n]?) h
    simp only [shape, List.getElem?_map] at hn
    simp only [Rule.part, hn]

def Constraint.bare (c : Constraint) : Constraint :=
  { c with isRecursive := true, removees := [], categories := .empty }

def Rule.bare (r : Rule) : Rule := { r with needsHistory := true, hints := none }

def Occurrence.bare (o : Occurrence) : Occurrence :=
  { o with stored := true, checkHistory := true, lookups := [] }

namespace Program

/-- The program without what passes have noted. -/
def bare (p : Program) : Program :=
  { p with
    constraints := p.constraints.map Constraint.bare
    rules := p.rules.map Rule.bare
    occurrences := p.occurrences.map Occurrence.bare }

theorem constraint?_bare (p : Program) (c : ConstraintId) :
    p.bare.constraint? c = (p.constraint? c).map Constraint.bare := by
  simp [constraint?, bare]

theorem rule?_bare (p : Program) (r : RuleId) : p.bare.rule? r = (p.rule? r).map Rule.bare := by
  simp [rule?, bare]

theorem occurrence?_bare (p : Program) (o : OccurrenceId) :
    p.bare.occurrence? o = (p.occurrence? o).map Occurrence.bare := by
  simp [occurrence?, bare]

/-- An occurrence stands in a part of the head of a rule. -/
def InHead (p : Program) (r : Rule) (part : HeadPart) (o : Occurrence) : Prop :=
  o ∈ p.occurrences ∧ o.rule = r.id ∧ o.head = part

/-- The list has the positive head of a rule, every occurrence at its place. -/
def ListsHead (p : Program) (r : Rule) (os : List Occurrence) : Prop :=
  ∀ i o, os[i]? = some o ↔ p.InHead r .positive o ∧ o.index = i

namespace ListsHead

variable {p : Program} {r : Rule} {os : List Occurrence} (h : p.ListsHead r os) {o u : Occurrence}

include h

theorem getElem?_args (ho : p.InHead r .positive o) :
    (os.map Occurrence.args)[o.index]? = some o.args := by
  rw [List.getElem?_map, (h o.index o).mpr ⟨ho, rfl⟩, Option.map_some]

theorem exists_of_getElem?_args {i : Nat} {a : List VarId}
    (ha : (os.map Occurrence.args)[i]? = some a) :
    ∃ o, p.InHead r .positive o ∧ o.index = i ∧ o.args = a := by
  rw [List.getElem?_map] at ha
  obtain ⟨o, ho, hoa⟩ := Option.map_eq_some_iff.mp ha
  obtain ⟨hin, hindex⟩ := (h i o).mp ho
  exact ⟨o, hin, hindex, hoa⟩

theorem eq_of_index_eq (ho : p.InHead r .positive o) (hu : p.InHead r .positive u)
    (he : o.index = u.index) :
    o = u := by
  have hou := (h u.index o).mpr ⟨ho, he⟩
  rw [(h u.index u).mpr ⟨hu, rfl⟩] at hou
  exact (Option.some.inj hou).symm

end ListsHead

structure Arranged (p : Program) : Prop where
  constraint_id : ∀ (i : Nat) (c : Constraint), p.constraints[i]? = some c → c.id = ⟨i⟩
  rule_id : ∀ (i : Nat) (r : Rule), p.rules[i]? = some r → r.id = ⟨i⟩
  occurrence_id : ∀ (i : Nat) (o : Occurrence), p.occurrences[i]? = some o → o.id = ⟨i⟩
  declared : ∀ o ∈ p.occurrences, ∃ c, p.constraint? o.constraint = some c ∧ c.arity = o.arity
  placed : ∀ o ∈ p.occurrences, ∃ r, p.rule? o.rule = some r ∧ (r.part o.head)[o.index]? = some o.id
  resolved : ∀ r ∈ p.rules, ∀ (part : HeadPart) (i : Nat) (id : OccurrenceId),
    (r.part part)[i]? = some id →
    ∃ o, p.occurrence? id = some o ∧ o.rule = r.id ∧ o.head = part ∧ o.index = i
  head_ne_nil : ∀ r ∈ p.rules, r.head ≠ []

structure WellFormed (p : Program) : Prop extends Arranged p where
  called : ∀ r ∈ p.rules, ∀ (c : ConstraintId) (args : List VarId), Goal.call c args ∈ r.body →
    ∃ k, p.constraint? c = some k ∧ k.arity = args.length

section BareEq

variable {p q : Program}

theorem getElem?_of_map_eq {α β : Type} {f : α → β} {xs ys : List α} (h : ys.map f = xs.map f)
    {i : Nat} {y : α} (hy : ys[i]? = some y) : ∃ x, xs[i]? = some x ∧ f x = f y := by
  have hi : (xs.map f)[i]? = some (f y) := by rw [← h, List.getElem?_map, hy, Option.map_some]
  rw [List.getElem?_map] at hi
  exact Option.map_eq_some_iff.mp hi

theorem constraint?_of_bare_eq (h : q.bare = p.bare) {c : ConstraintId} {k : Constraint}
    (hk : q.constraint? c = some k) :
    ∃ k' recursive removees categories, p.constraint? c = some k' ∧
      k = { k' with isRecursive := recursive, removees := removees, categories := categories } := by
  obtain ⟨k', hk', he⟩ := getElem?_of_map_eq (congrArg constraints h) hk
  refine ⟨k', k.isRecursive, k.removees, k.categories, hk', ?_⟩
  cases k
  cases k'
  cases he
  rfl

theorem rule?_of_bare_eq (h : q.bare = p.bare) {r : RuleId} {rule : Rule}
    (hr : q.rule? r = some rule) :
    ∃ rule' needs hints, p.rule? r = some rule' ∧
      rule = { rule' with needsHistory := needs, hints := hints } := by
  obtain ⟨rule', hr', he⟩ := getElem?_of_map_eq (congrArg rules h) hr
  refine ⟨rule', rule.needsHistory, rule.hints, hr', ?_⟩
  cases rule
  cases rule'
  cases he
  rfl

theorem occurrence?_of_bare_eq (h : q.bare = p.bare) {o : OccurrenceId} {u : Occurrence}
    (hu : q.occurrence? o = some u) : ∃ u' stored check lookups, p.occurrence? o = some u' ∧
      u = { u' with stored := stored, checkHistory := check, lookups := lookups } := by
  obtain ⟨u', hu', he⟩ := getElem?_of_map_eq (congrArg occurrences h) hu
  refine ⟨u', u.stored, u.checkHistory, u.lookups, hu', ?_⟩
  cases u
  cases u'
  cases he
  rfl

theorem mem_occurrences_iff {u : Occurrence} :
    u ∈ p.occurrences ↔ ∃ o, p.occurrence? o = some u := by
  constructor
  · intro h
    obtain ⟨i, hi⟩ := List.mem_iff_getElem?.mp h
    exact ⟨⟨i⟩, hi⟩
  · rintro ⟨o, ho⟩
    exact List.mem_of_getElem? ho

theorem mem_rules_iff {rule : Rule} : rule ∈ p.rules ↔ ∃ r, p.rule? r = some rule := by
  constructor
  · intro h
    obtain ⟨i, hi⟩ := List.mem_iff_getElem?.mp h
    exact ⟨⟨i⟩, hi⟩
  · rintro ⟨r, hr⟩
    exact List.mem_of_getElem? hr

/-- Two programs whose heads and identifiers are the same. -/
structure SameShape (p q : Program) : Prop where
  constraints_eq : q.constraints.map Constraint.shape = p.constraints.map Constraint.shape
  rules_eq : q.rules.map Rule.shape = p.rules.map Rule.shape
  occurrences_eq : q.occurrences.map Occurrence.shape = p.occurrences.map Occurrence.shape

namespace SameShape

theorem symm (h : p.SameShape q) : q.SameShape p := ⟨h.1.symm, h.2.symm, h.3.symm⟩

theorem of_bare_eq (h : q.bare = p.bare) : p.SameShape q := by
  have hshape : ∀ t : Program, t.bare.constraints.map Constraint.shape =
      t.constraints.map Constraint.shape ∧
      t.bare.rules.map Rule.shape = t.rules.map Rule.shape ∧
      t.bare.occurrences.map Occurrence.shape = t.occurrences.map Occurrence.shape := fun t => by
    simp only [bare, List.map_map]
    exact ⟨rfl, rfl, rfl⟩
  obtain ⟨hc, hr, ho⟩ := hshape q
  rw [h] at hc hr ho
  exact ⟨hc.symm.trans (hshape p).1, hr.symm.trans (hshape p).2.1, ho.symm.trans (hshape p).2.2⟩

end SameShape

theorem Arranged.of_sameShape (h : p.Arranged) (hs : p.SameShape q) : q.Arranged where
  constraint_id i c hc := by
    obtain ⟨k, hk, he⟩ := getElem?_of_map_eq hs.constraints_eq hc
    exact (congrArg Prod.fst he).symm.trans (h.constraint_id i k hk)
  rule_id i r hr := by
    obtain ⟨s, hr', he⟩ := getElem?_of_map_eq hs.rules_eq hr
    exact (congrArg Prod.fst he).symm.trans (h.rule_id i s hr')
  occurrence_id i o ho := by
    obtain ⟨u, hu, he⟩ := getElem?_of_map_eq hs.occurrences_eq ho
    exact (congrArg Prod.fst he).symm.trans (h.occurrence_id i u hu)
  declared o ho := by
    obtain ⟨i, hi⟩ := List.mem_iff_getElem?.mp ho
    obtain ⟨u, hu, he⟩ := getElem?_of_map_eq hs.occurrences_eq hi
    obtain ⟨k, hk, harity⟩ := h.declared u (List.mem_of_getElem? hu)
    obtain ⟨c, hc, hek⟩ := getElem?_of_map_eq hs.symm.constraints_eq hk
    simp only [Occurrence.shape, Constraint.shape, Prod.mk.injEq] at he hek
    obtain ⟨_, hconstraint, _, _, _, hargs⟩ := he
    exact ⟨c, hconstraint ▸ hc, hek.2.trans (harity.trans hargs)⟩
  placed o ho := by
    obtain ⟨i, hi⟩ := List.mem_iff_getElem?.mp ho
    obtain ⟨u, hu, he⟩ := getElem?_of_map_eq hs.occurrences_eq hi
    obtain ⟨s, hsr, hplace⟩ := h.placed u (List.mem_of_getElem? hu)
    obtain ⟨r, hr, her⟩ := getElem?_of_map_eq hs.symm.rules_eq hsr
    simp only [Occurrence.shape, Prod.mk.injEq] at he
    obtain ⟨hid, _, hrule, hhead, hindex, _⟩ := he
    refine ⟨r, hrule ▸ hr, ?_⟩
    rw [Rule.part_eq_of_shape her, ← hid, ← hhead, ← hindex]
    exact hplace
  resolved r hr part i id hid := by
    obtain ⟨k, hk⟩ := List.mem_iff_getElem?.mp hr
    obtain ⟨s, hsr, he⟩ := getElem?_of_map_eq hs.rules_eq hk
    rw [← Rule.part_eq_of_shape he] at hid
    obtain ⟨u, hu, hrule, hhead, hindex⟩ := h.resolved s (List.mem_of_getElem? hsr) part i id hid
    obtain ⟨o, ho, heo⟩ := getElem?_of_map_eq hs.symm.occurrences_eq hu
    simp only [Occurrence.shape, Prod.mk.injEq] at heo
    obtain ⟨_, _, hrule', hhead', hindex', _⟩ := heo
    exact ⟨o, ho, hrule'.trans (hrule.trans (congrArg Prod.fst he)), hhead'.trans hhead,
      hindex'.trans hindex⟩
  head_ne_nil r hr := by
    obtain ⟨k, hk⟩ := List.mem_iff_getElem?.mp hr
    obtain ⟨s, hsr, he⟩ := getElem?_of_map_eq hs.rules_eq hk
    have hhead : s.head = r.head := Rule.part_eq_of_shape he .positive
    exact hhead ▸ h.head_ne_nil s (List.mem_of_getElem? hsr)

theorem WellFormed.of_bare_eq (h : p.WellFormed) (he : q.bare = p.bare) : q.WellFormed where
  toArranged := h.toArranged.of_sameShape (.of_bare_eq he)
  called r hr c args hc := by
    obtain ⟨_, hr⟩ := mem_rules_iff.mp hr
    obtain ⟨s, _, _, hs, rfl⟩ := rule?_of_bare_eq he hr
    obtain ⟨k, hk, ha⟩ := h.called s (mem_rules_iff.mpr ⟨_, hs⟩) c args hc
    obtain ⟨k', _, _, _, hk', rfl⟩ := constraint?_of_bare_eq he.symm hk
    exact ⟨k', hk', ha⟩

end BareEq

theorem mapM_eq_some_iff {α β : Type} {f : α → Option β} {xs : List α} {ys : List β} :
    xs.mapM f = some ys ↔ xs.map f = ys.map some := by
  induction xs generalizing ys with
  | nil => cases ys <;> simp
  | cons x xs ih =>
    cases ys with
    | nil => simp [Option.bind_eq_some_iff]
    | cons y ys =>
      rw [List.mapM_cons, List.map_cons, List.map_cons, List.cons.injEq, ← ih]
      cases hx : f x with
      | none => simp
      | some z => cases hxs : xs.mapM f <;> simp

theorem exists_mapM_eq_some {α β : Type} {f : α → Option β} {xs : List α}
    (hf : ∀ x ∈ xs, ∃ y, f x = some y) :
    ∃ ys, xs.mapM f = some ys ∧ xs.map f = ys.map some ∧ ∀ y, y ∈ ys ↔ ∃ x ∈ xs, f x = some y := by
  have hlist : ∃ ys : List β, xs.map f = ys.map some := by
    induction xs with
    | nil => exact ⟨[], rfl⟩
    | cons x xs ih =>
      obtain ⟨y, hy⟩ := hf x List.mem_cons_self
      obtain ⟨ys, hys⟩ := ih fun x hx => hf x (List.mem_cons_of_mem _ hx)
      exact ⟨y :: ys, by rw [List.map_cons, List.map_cons, hy, hys]⟩
  obtain ⟨ys, hys⟩ := hlist
  refine ⟨ys, mapM_eq_some_iff.mpr hys, hys, fun y => ?_⟩
  have hiff : some y ∈ ys.map some ↔ some y ∈ xs.map f := by rw [hys]
  simpa using hiff

theorem exists_flatten_mapM {α β : Type} {f : α → Option (List β)} {xs : List α} {P : α → β → Prop}
    {Q : β → Prop} (hf : ∀ x ∈ xs, ∃ ys, f x = some ys ∧ ∀ y, y ∈ ys ↔ P x y)
    (hQ : ∀ y, (∃ x ∈ xs, P x y) ↔ Q y) :
    ∃ ys, (do let yss ← xs.mapM f; some yss.flatten) = some ys ∧ ∀ y, y ∈ ys ↔ Q y := by
  obtain ⟨yss, hyss, _, hmem⟩ := exists_mapM_eq_some fun x hx => (hf x hx).imp fun _ hys => hys.1
  refine ⟨yss.flatten, by rw [hyss]; rfl, fun y => ?_⟩
  rw [← hQ]
  simp only [List.mem_flatten, hmem]
  constructor
  · rintro ⟨ys, ⟨x, hx, hys⟩, hy⟩
    obtain ⟨ys', hys', hiff⟩ := hf x hx
    rw [hys] at hys'
    cases hys'
    exact ⟨x, hx, (hiff y).mp hy⟩
  · rintro ⟨x, hx, hy⟩
    obtain ⟨ys, hys, hiff⟩ := hf x hx
    exact ⟨ys, ⟨x, hx, hys⟩, (hiff y).mpr hy⟩

namespace Arranged

variable {p : Program} (h : p.Arranged)

include h

theorem constraint?_id {c : Constraint} (hc : c ∈ p.constraints) : p.constraint? c.id = some c := by
  obtain ⟨i, hi⟩ := List.mem_iff_getElem?.mp hc
  rw [h.constraint_id i c hi]
  exact hi

theorem rule?_id {r : Rule} (hr : r ∈ p.rules) : p.rule? r.id = some r := by
  obtain ⟨i, hi⟩ := List.mem_iff_getElem?.mp hr
  rw [h.rule_id i r hi]
  exact hi

theorem occurrence?_id {o : Occurrence} (ho : o ∈ p.occurrences) : p.occurrence? o.id = some o := by
  obtain ⟨i, hi⟩ := List.mem_iff_getElem?.mp ho
  rw [h.occurrence_id i o hi]
  exact hi

theorem id_of_constraint? {c : ConstraintId} {k : Constraint} (hk : p.constraint? c = some k) :
    k.id = c :=
  h.constraint_id c.index k hk

theorem id_of_rule? {r : RuleId} {rule : Rule} (hr : p.rule? r = some rule) : rule.id = r :=
  h.rule_id r.index rule hr

theorem id_of_occurrence? {o : OccurrenceId} {u : Occurrence} (hu : p.occurrence? o = some u) :
    u.id = o :=
  h.occurrence_id o.index u hu

theorem eq_of_id_eq {o u : Occurrence} (ho : o ∈ p.occurrences) (hu : u ∈ p.occurrences)
    (he : o.id = u.id) :
    o = u := by
  have ho' := h.occurrence?_id ho
  rw [he, h.occurrence?_id hu] at ho'
  exact (Option.some.inj ho').symm

theorem constraints_pairwise :
    (p.constraints.map Constraint.id).Pairwise fun c d => c.index < d.index := by
  rw [List.pairwise_map, List.pairwise_iff_getElem]
  intro i j hi hj hij
  rw [h.constraint_id i _ (List.getElem?_eq_getElem hi),
    h.constraint_id j _ (List.getElem?_eq_getElem hj)]
  exact hij

theorem pairwise_id_lt : p.occurrences.Pairwise fun u v => u.id.index < v.id.index := by
  rw [List.pairwise_iff_getElem]
  intro i j hi hj hij
  rw [h.occurrence_id i _ (List.getElem?_eq_getElem hi),
    h.occurrence_id j _ (List.getElem?_eq_getElem hj)]
  exact hij

theorem nodup_occurrences : p.occurrences.Nodup := by
  refine h.pairwise_id_lt.imp fun hlt he => ?_
  rw [he] at hlt
  exact Nat.lt_irrefl _ hlt

theorem arity_eq {o : Occurrence} {k : Constraint} (ho : o ∈ p.occurrences)
    (hk : p.constraint? o.constraint = some k) :
    k.arity = o.arity := by
  obtain ⟨k', hk', harity⟩ := h.declared o ho
  rw [hk] at hk'
  cases hk'
  exact harity

theorem mem_occurrences_rule {o : Occurrence} {r : Rule} (ho : o ∈ p.occurrences)
    (hr : r ∈ p.rules) :
    o.id ∈ r.occurrences ↔ o.rule = r.id := by
  rw [Rule.mem_occurrences]
  constructor
  · rintro ⟨part, i, hi⟩
    obtain ⟨u, hu, hrule, _, _⟩ := h.resolved r hr part i o.id hi
    rw [h.occurrence?_id ho] at hu
    cases hu
    exact hrule
  · intro he
    obtain ⟨s, hs, hp⟩ := h.placed o ho
    rw [he, h.rule?_id hr] at hs
    cases hs
    exact ⟨o.head, o.index, hp⟩

theorem getElem?_part {o : Occurrence} {r : Rule} (ho : o ∈ p.occurrences) (hr : r ∈ p.rules)
    {part : HeadPart} {i : Nat} :
    (r.part part)[i]? = some o.id ↔ p.InHead r part o ∧ o.index = i := by
  constructor
  · intro hi
    obtain ⟨u, hu, hrule, hhead, hindex⟩ := h.resolved r hr part i o.id hi
    rw [h.occurrence?_id ho] at hu
    cases hu
    exact ⟨⟨ho, hrule, hhead⟩, hindex⟩
  · rintro ⟨⟨_, hrule, hhead⟩, hindex⟩
    obtain ⟨s, hs, hp⟩ := h.placed o ho
    rw [hrule, h.rule?_id hr] at hs
    cases hs
    rwa [hhead, hindex] at hp

theorem mem_part {o : Occurrence} {r : Rule} (ho : o ∈ p.occurrences) (hr : r ∈ p.rules)
    {part : HeadPart} :
    o.id ∈ r.part part ↔ p.InHead r part o := by
  rw [List.mem_iff_getElem?]
  simp only [h.getElem?_part ho hr]
  exact ⟨fun ⟨_, hin, _⟩ => hin, fun hin => ⟨o.index, hin, rfl⟩⟩

theorem mem_head {o : Occurrence} {r : Rule} (ho : o ∈ p.occurrences) (hr : r ∈ p.rules) :
    o.id ∈ r.head ↔ o.rule = r.id ∧ o.head = .positive := by
  change o.id ∈ r.part .positive ↔ _
  rw [h.mem_part ho hr]
  exact and_iff_right ho

theorem nodup_head {r : Rule} (hr : r ∈ p.rules) : r.head.Nodup := by
  refine List.nodup_iff_getElem?_ne_getElem?.mpr fun i j hij hj heq => ?_
  obtain ⟨u, hu, _, _, hui⟩ := h.resolved r hr .positive j r.head[j] (List.getElem?_eq_getElem hj)
  obtain ⟨v, hv, _, _, hvi⟩ :=
    h.resolved r hr .positive i r.head[j] (heq.trans (List.getElem?_eq_getElem hj))
  rw [hu] at hv
  cases hv
  omega

theorem resolve?_eq_some {r : Rule} (hr : r ∈ p.rules) {ids : List OccurrenceId}
    (hids : ids ⊆ r.occurrences) :
    ∃ os, p.resolve? ids = some os ∧ os.map Occurrence.id = ids ∧
      ∀ o, o ∈ os ↔ o ∈ p.occurrences ∧ o.id ∈ ids := by
  have hget : ∀ id ∈ ids, ∃ o, p.occurrence? id = some o := fun id hid => by
    obtain ⟨part, i, hi⟩ := Rule.mem_occurrences.mp (hids hid)
    obtain ⟨o, ho, _⟩ := h.resolved r hr part i id hi
    exact ⟨o, ho⟩
  obtain ⟨os, hres, hos, hmem⟩ := exists_mapM_eq_some hget
  refine ⟨os, hres, ?_, fun o => ?_⟩
  · apply List.ext_getElem?
    intro i
    have hi := congrArg (fun l : List (Option Occurrence) => l[i]?) hos
    simp only [List.getElem?_map] at hi ⊢
    cases hid : ids[i]? with
    | none => cases ho : os[i]? <;> simp_all
    | some id =>
      cases ho : os[i]? with
      | none => simp_all
      | some o =>
        rw [hid, ho] at hi
        simp only [Option.map_some, Option.some.injEq] at hi ⊢
        exact h.id_of_occurrence? hi
  · rw [hmem]
    constructor
    · rintro ⟨id, hid, ho⟩
      rw [h.id_of_occurrence? ho]
      exact ⟨mem_occurrences_iff.mpr ⟨id, ho⟩, hid⟩
    · rintro ⟨ho, hid⟩
      exact ⟨o.id, hid, h.occurrence?_id ho⟩

theorem resolve?_map_id {os : List Occurrence} (hos : ∀ o ∈ os, o ∈ p.occurrences) :
    p.resolve? (os.map Occurrence.id) = some os := by
  induction os with
  | nil => rfl
  | cons o os ih =>
    have hrest := ih fun u hu => hos u (List.mem_cons_of_mem o hu)
    rw [resolve?] at hrest ⊢
    rw [List.map_cons, List.mapM_cons, h.occurrence?_id (hos o List.mem_cons_self), hrest]
    rfl

theorem rule_mem {o : Occurrence} (ho : o ∈ p.occurrences) :
    ∃ r ∈ p.rules, p.rule? o.rule = some r ∧ r.id = o.rule := by
  obtain ⟨r, hr, _⟩ := h.placed o ho
  exact ⟨r, mem_rules_iff.mpr ⟨_, hr⟩, hr, h.id_of_rule? hr⟩

theorem head_eq {r : Rule} (hr : r ∈ p.rules) : ∃ os, p.resolve? r.head = some os ∧
    ∀ o, o ∈ os ↔ o ∈ p.occurrences ∧ o.rule = r.id ∧ o.head = .positive := by
  obtain ⟨os, hos, _, hmem⟩ := h.resolve?_eq_some hr fun id hid => List.mem_append_left _ hid
  refine ⟨os, hos, fun o => ?_⟩
  rw [hmem]
  constructor
  · rintro ⟨ho, hid⟩
    exact ⟨ho, (h.mem_head ho hr).mp hid⟩
  · rintro ⟨ho, hplace⟩
    exact ⟨ho, (h.mem_head ho hr).mpr hplace⟩

theorem head_listed {r : Rule} (hr : r ∈ p.rules) :
    ∃ os, p.resolve? r.head = some os ∧ os.length = r.head.length ∧ p.ListsHead r os := by
  obtain ⟨os, hos, hids, hmem⟩ := h.resolve?_eq_some hr fun id hid => List.mem_append_left _ hid
  refine ⟨os, hos, by rw [← hids, List.length_map], fun i o => ?_⟩
  have hhead : r.head[i]? = os[i]?.map Occurrence.id := by rw [← hids, List.getElem?_map]
  constructor
  · intro hi
    have ho := ((hmem o).mp (List.mem_of_getElem? hi)).1
    exact (h.getElem?_part ho hr).mp (by rw [Rule.part, hhead, hi, Option.map_some])
  · intro hin
    have hid := (h.getElem?_part hin.1.1 hr).mpr hin
    rw [Rule.part, hhead] at hid
    obtain ⟨u, hu, he⟩ := Option.map_eq_some_iff.mp hid
    rw [hu, h.eq_of_id_eq ((hmem u).mp (List.mem_of_getElem? hu)).1 hin.1.1 he]

theorem resolve?_others {r : Rule} (hr : r ∈ p.rules) {ids : List OccurrenceId}
    (hids : ids ⊆ r.occurrences) (o : Occurrence) :
    ∃ qs, p.resolve? (ids.filter fun q => q ≠ o.id) = some qs ∧
      (qs.map Occurrence.id = ids.filter fun q => q ≠ o.id) ∧
      ∀ q, q ∈ qs ↔ q ∈ p.occurrences ∧ q.id ∈ ids ∧ q.id ≠ o.id := by
  obtain ⟨qs, hqs, hmap, hmem⟩ :=
    h.resolve?_eq_some hr fun q hq => hids (List.mem_of_mem_filter hq)
  refine ⟨qs, hqs, hmap, fun q => ?_⟩
  rw [hmem, List.mem_filter, decide_eq_true_eq]

theorem partners_eq {o : Occurrence} (ho : o ∈ p.occurrences) :
    ∃ ids qs, p.partners? o = some ids ∧ p.resolve? ids = some qs ∧
      ∀ q, q ∈ qs ↔ q ∈ p.occurrences ∧ q.rule = o.rule ∧ q.id ≠ o.id := by
  obtain ⟨r, hr, hro, hid⟩ := h.rule_mem ho
  obtain ⟨qs, hqs, _, hmem⟩ := h.resolve?_others hr (List.Subset.refl r.occurrences) o
  refine ⟨_, qs, by rw [partners?, hro, Option.map_some], hqs, fun q => ?_⟩
  rw [hmem, ← hid]
  exact and_congr_right fun hq => and_congr_left fun _ => h.mem_occurrences_rule hq hr

theorem headPartners_eq {o : Occurrence} (ho : o ∈ p.occurrences) :
    ∃ ids qs, p.headPartners? o = some ids ∧ p.resolve? ids = some qs ∧ qs.map Occurrence.id = ids ∧
      ∀ q, q ∈ qs ↔ q ∈ p.occurrences ∧ q.rule = o.rule ∧ q.head = .positive ∧ q.id ≠ o.id := by
  obtain ⟨r, hr, hro, hid⟩ := h.rule_mem ho
  obtain ⟨qs, hqs, hids, hmem⟩ := h.resolve?_others hr (List.subset_append_left r.head _) o
  refine ⟨_, qs, by rw [headPartners?, hro, Option.map_some], hqs, hids, fun q => ?_⟩
  rw [hmem, ← hid, ← and_assoc (a := q.rule = r.id)]
  exact and_congr_right fun hq => and_congr_left fun _ => h.mem_head hq hr

end Arranged

end Program

end ConstraintRules
