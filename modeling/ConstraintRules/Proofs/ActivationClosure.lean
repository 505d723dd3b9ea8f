import ConstraintRules.Proofs.Ledger
import ConstraintRules.Proofs.WellFormed
import ConstraintRules.Activation.Load

/-! The activation closure of a rule, defined on the program alone. A session
loaded from a well-formed program answers by it. -/

namespace ConstraintRules

open Activation

namespace Program

def Runs (p : Program) (r : RuleId) (g : Goal) : Prop :=
  ∃ rule, p.rule? r = some rule ∧ g ∈ rule.body

def Reactive (p : Program) (c : ConstraintId) : Prop :=
  ∃ k, p.constraint? c = some k ∧ k.modifiers.reactive = true

def Exported (p : Program) (c : ConstraintId) : Prop :=
  ∃ k, p.constraint? c = some k ∧ k.modifiers.exported = true

def Triggers (p : Program) (r : RuleId) : Prop := p.Runs r .triggering ∨ p.Runs r .pessimistic

def BodyActivates (p : Program) (r : RuleId) (c : ConstraintId) : Prop :=
  (∃ args, p.Runs r (.call c args)) ∨ (p.Triggers r ∧ p.Reactive c) ∨
    (p.Runs r .pessimistic ∧ p.Exported c)

/-- The constraint has an active occurrence in the rule. -/
def Fires (p : Program) (x : ConstraintId) (r : RuleId) : Prop :=
  ∃ o ∈ p.active, o.constraint = x ∧ o.rule = r

/-- The closure: what the body activates, and what the bodies of the
rules fired by that activate. -/
inductive Activates (p : Program) (r : RuleId) : ConstraintId → Prop
  | body {c : ConstraintId} : p.BodyActivates r c → Activates p r c
  | step {x c : ConstraintId} {s : RuleId} :
    Activates p r x → p.Fires x s → p.BodyActivates s c → Activates p r c

/-- The rule itself, or one that a member of its closure may fire. -/
def LeadsTo (p : Program) (r s : RuleId) : Prop := s = r ∨ ∃ x, p.Activates r x ∧ p.Fires x s

def ReachesTrigger (p : Program) (r : RuleId) : Prop := ∃ s, p.LeadsTo r s ∧ p.Triggers s

def ReachesForeign (p : Program) (r : RuleId) : Prop := ∃ s, p.LeadsTo r s ∧ p.Runs s .pessimistic

/-- An active occurrence of `x` has a partner, in the positive or in a negative head, that is an
occurrence of `c`. -/
def LooksUp (p : Program) (x c : ConstraintId) : Prop :=
  ∃ o ∈ p.active, o.constraint = x ∧
    ∃ q ∈ p.occurrences, q.rule = o.rule ∧ q.id ≠ o.id ∧ q.constraint = c

/-- The body of the rule may look up stored instances of the constraint. -/
def BodyObserves (p : Program) (r : RuleId) (c : ConstraintId) : Prop :=
  p.Activates r c ∨ (∃ x, p.Activates r x ∧ p.LooksUp x c) ∨ (p.ReachesTrigger r ∧ p.Reactive c) ∨
    (p.ReachesForeign r ∧ (p.Exported c ∨ p.Reactive c))

/-- A firing through an active occurrence of `x` removes an instance of `c`. -/
def Consumes (p : Program) (x c : ConstraintId) : Prop :=
  ∃ o ∈ p.active, o.constraint = x ∧
    ∃ q ∈ p.occurrences, q.rule = o.rule ∧ q.head = .positive ∧ q.removed = true ∧ q.constraint = c

/-- A body fired by `x` has a built-in that needs the stack. -/
def NeedsStack (p : Program) (x : ConstraintId) : Prop :=
  ∃ o ∈ p.active, o.constraint = x ∧ ∃ b, p.Runs o.rule (.builtIn b) ∧ b.needsStack = true

/-- The edges of the activation graph of a program. -/
inductive Link (p : Program) : Node → Node → Prop
  | call {r : RuleId} {c : ConstraintId} {args : List VarId} :
    p.Runs r (.call c args) → Link p (.body r) (.constraint c)
  | triggering {r : RuleId} : p.Runs r .triggering → Link p (.body r) .trigger
  | pessimistic {r : RuleId} : p.Runs r .pessimistic → Link p (.body r) .foreign
  | foreign {r : RuleId} : p.Runs r .pessimistic → Link p .foreign .trigger
  | reactive {c : ConstraintId} : p.Reactive c → Link p .trigger (.constraint c)
  | exported {c : ConstraintId} : p.Exported c → Link p .foreign (.constraint c)
  | fires {x : ConstraintId} {r : RuleId} : p.Fires x r → Link p (.constraint x) (.body r)

/-- The facts that declarations, active occurrences and bodies tell. -/
inductive Tells (p : Program) : Fact → Prop
  | reactivated {c : ConstraintId} : p.Reactive c → Tells p (.reactivated c)
  | exported {c : ConstraintId} : p.Exported c → Tells p (.exported c)
  | fires {x : ConstraintId} {r : RuleId} : p.Fires x r →
    Tells p (.related .activates (.constraint x) (.body r))
  | call {r : RuleId} {c : ConstraintId} {args : List VarId} :
    p.Runs r (.call c args) → Tells p (.related .activates (.body r) (.constraint c))
  | triggering {r : RuleId} : p.Runs r .triggering → Tells p (.triggering (.body r))
  | pessimistic {r : RuleId} : p.Runs r .pessimistic → Tells p (.pessimistic (.body r))

theorem tells_reactivated_iff {p : Program} {c : ConstraintId} :
    p.Tells (.reactivated c) ↔ p.Reactive c := by
  refine ⟨fun h => ?_, .reactivated⟩
  cases h with
  | reactivated hc => exact hc

theorem tells_exported_iff {p : Program} {c : ConstraintId} :
    p.Tells (.exported c) ↔ p.Exported c := by
  refine ⟨fun h => ?_, .exported⟩
  cases h with
  | exported hc => exact hc

/-- What the closure of a rule says about a node of the graph. -/
def Reaches (p : Program) (r : RuleId) : Node → Prop
  | .constraint c => p.Activates r c
  | .body s => ∃ x, p.Activates r x ∧ p.Fires x s
  | .trigger => p.ReachesTrigger r
  | .foreign => p.ReachesForeign r

section Paths

variable {p : Program} {r s : RuleId}

theorem LeadsTo.activates {c : ConstraintId} (h : p.LeadsTo r s) (hc : p.BodyActivates s c) :
    p.Activates r c := by
  rcases h with rfl | ⟨x, hx, hs⟩
  · exact .body hc
  · exact .step hx hs hc

theorem LeadsTo.reaches_of_link {n : Node} (h : p.LeadsTo r s) (hn : p.Link (.body s) n) :
    p.Reaches r n := by
  cases hn with
  | call hc => exact h.activates (Or.inl ⟨_, hc⟩)
  | triggering ht => exact ⟨s, h, Or.inl ht⟩
  | pessimistic hf => exact ⟨s, h, hf⟩

theorem Reaches.link {n m : Node} (h : p.Reaches r n) (hnm : p.Link n m) : p.Reaches r m := by
  cases n with
  | constraint x =>
    cases hnm with
    | fires hs => exact ⟨x, h, hs⟩
  | body s => exact LeadsTo.reaches_of_link (Or.inr h) hnm
  | trigger =>
    cases hnm with
    | reactive hc =>
      obtain ⟨s, hs, ht⟩ := h
      exact hs.activates (Or.inr (Or.inl ⟨ht, hc⟩))
  | foreign =>
    obtain ⟨s, hs, hf⟩ := h
    cases hnm with
    | foreign _ => exact ⟨s, hs, Or.inr hf⟩
    | exported hc => exact hs.activates (Or.inr (Or.inr ⟨hf, hc⟩))

theorem path_of_bodyActivates {n : Node} {c : ConstraintId}
    (hn : n = .body s ∨ Relation.TransGen p.Link n (.body s)) (hc : p.BodyActivates s c) :
    Relation.TransGen p.Link n (.constraint c) := by
  have hstep : ∀ {m : Node}, p.Link (.body s) m → Relation.TransGen p.Link n m := fun hm => by
    rcases hn with rfl | hn
    · exact .single hm
    · exact hn.tail hm
  have hforeign : p.Runs s .pessimistic → Relation.TransGen p.Link n .foreign :=
    fun hf => hstep (.pessimistic hf)
  rcases hc with ⟨args, hcall⟩ | ⟨ht | hf, hreact⟩ | ⟨hf, hexp⟩
  · exact hstep (.call hcall)
  · exact (hstep (.triggering ht)).tail (.reactive hreact)
  · exact ((hforeign hf).tail (.foreign hf)).tail (.reactive hreact)
  · exact (hforeign hf).tail (.exported hexp)

theorem Activates.path {c : ConstraintId} (h : p.Activates r c) :
    Relation.TransGen p.Link (.body r) (.constraint c) := by
  induction h with
  | body hc => exact path_of_bodyActivates (Or.inl rfl) hc
  | step _ hs hc ih => exact path_of_bodyActivates (Or.inr (ih.tail (.fires hs))) hc

theorem LeadsTo.path {m : Node} (h : p.LeadsTo r s) (hm : p.Link (.body s) m) :
    Relation.TransGen p.Link (.body r) m := by
  rcases h with rfl | ⟨x, hx, hs⟩
  · exact .single hm
  · exact (hx.path.tail (.fires hs)).tail hm

theorem path_iff_reaches {n : Node} : Relation.TransGen p.Link (.body r) n ↔ p.Reaches r n := by
  constructor
  · intro h
    induction h with
    | single hn => exact LeadsTo.reaches_of_link (Or.inl rfl) hn
    | tail _ hn ih => exact ih.link hn
  · intro h
    cases n with
    | constraint c => exact h.path
    | body s =>
      obtain ⟨x, hx, hs⟩ := h
      exact hx.path.tail (.fires hs)
    | trigger =>
      obtain ⟨s, hs, ht | hf⟩ := h
      · exact hs.path (.triggering ht)
      · exact (hs.path (.pessimistic hf)).tail (.foreign hf)
    | foreign =>
      obtain ⟨s, hs, hf⟩ := h
      exact hs.path (.pessimistic hf)

end Paths

section Loading

variable {p : Program}

theorem mem_modifierFacts (h : p.WellFormed) {fact : Fact} : fact ∈ p.modifierFacts ↔
    (∃ c, p.Reactive c ∧ fact = .reactivated c) ∨ ∃ c, p.Exported c ∧ fact = .exported c := by
  simp only [modifierFacts, List.mem_flatMap, List.mem_append, List.mem_ite_nil_right,
    List.mem_singleton]
  constructor
  · rintro ⟨k, hk, ⟨hr, rfl⟩ | ⟨he, rfl⟩⟩
    · exact Or.inl ⟨k.id, ⟨k, h.constraint?_id hk, hr⟩, rfl⟩
    · exact Or.inr ⟨k.id, ⟨k, h.constraint?_id hk, he⟩, rfl⟩
  · rintro (⟨c, ⟨k, hk, hr⟩, rfl⟩ | ⟨c, ⟨k, hk, he⟩, rfl⟩)
    · exact ⟨k, List.mem_of_getElem? hk, Or.inl ⟨hr, by rw [h.id_of_constraint? hk]⟩⟩
    · exact ⟨k, List.mem_of_getElem? hk, Or.inr ⟨he, by rw [h.id_of_constraint? hk]⟩⟩

theorem mem_activationFacts {fact : Fact} : fact ∈ p.activationFacts ↔
    ∃ x r, p.Fires x r ∧ fact = .related .activates (.constraint x) (.body r) := by
  simp only [activationFacts, List.mem_map]
  constructor
  · rintro ⟨o, ho, rfl⟩
    exact ⟨o.constraint, o.rule, ⟨o, ho, rfl, rfl⟩, rfl⟩
  · rintro ⟨_, _, ⟨o, ho, rfl, rfl⟩, rfl⟩
    exact ⟨o, ho, rfl⟩

theorem mem_bodyFacts (h : p.WellFormed) {fact : Fact} :
    fact ∈ p.bodyFacts ↔ ∃ r g, p.Runs r g ∧ fact ∈ goalFacts r g := by
  simp only [bodyFacts, List.mem_flatMap]
  constructor
  · rintro ⟨rule, hrule, g, hg, hfact⟩
    exact ⟨rule.id, g, ⟨rule, h.rule?_id hrule, hg⟩, hfact⟩
  · rintro ⟨r, g, ⟨rule, hrule, hg⟩, hfact⟩
    refine ⟨rule, List.mem_of_getElem? hrule, g, hg, ?_⟩
    rw [h.id_of_rule? hrule]
    exact hfact

theorem mem_callFacts (h : p.WellFormed) {fact : Fact} : fact ∈ p.callFacts ↔ p.Tells fact := by
  rw [callFacts, List.mem_append, List.mem_append, mem_modifierFacts h, mem_activationFacts,
    mem_bodyFacts h]
  constructor
  · rintro (((⟨c, hc, rfl⟩ | ⟨c, hc, rfl⟩) | ⟨x, r, hx, rfl⟩) | ⟨r, g, hg, hfact⟩)
    · exact .reactivated hc
    · exact .exported hc
    · exact .fires hx
    · cases g with
      | call c args =>
        cases List.mem_singleton.mp hfact
        exact .call hg
      | triggering =>
        cases List.mem_singleton.mp hfact
        exact .triggering hg
      | pessimistic =>
        cases List.mem_singleton.mp hfact
        exact .pessimistic hg
      | builtIn _ | free => cases hfact
  · intro ht
    cases ht with
    | reactivated hc => exact Or.inl (Or.inl (Or.inl ⟨_, hc, rfl⟩))
    | exported hc => exact Or.inl (Or.inl (Or.inr ⟨_, hc, rfl⟩))
    | fires hx => exact Or.inl (Or.inr ⟨_, _, hx, rfl⟩)
    | call hg | triggering hg | pessimistic hg => exact Or.inr ⟨_, _, hg, List.mem_singleton_self _⟩

theorem mem_edges_callFacts (h : p.WellFormed) {x y : Node} :
    (x, y) ∈ p.callFacts.flatMap Fact.edges ↔ p.Link x y := by
  simp only [List.mem_flatMap, mem_callFacts h]
  constructor
  · rintro ⟨_, ht, he⟩
    cases ht with
    | reactivated hc =>
      cases List.mem_singleton.mp he
      exact .reactive hc
    | exported hc =>
      cases List.mem_singleton.mp he
      exact .exported hc
    | fires hx =>
      cases List.mem_singleton.mp he
      exact .fires hx
    | call hg =>
      cases List.mem_singleton.mp he
      exact .call hg
    | triggering hg =>
      cases List.mem_singleton.mp he
      exact .triggering hg
    | pessimistic hg =>
      rcases List.mem_cons.mp he with he | he
      · cases he
        exact .pessimistic hg
      · cases List.mem_singleton.mp he
        exact .foreign hg
  · intro hl
    cases hl with
    | call hg => exact ⟨_, .call hg, List.mem_singleton_self _⟩
    | triggering hg => exact ⟨_, .triggering hg, List.mem_singleton_self _⟩
    | pessimistic hg => exact ⟨_, .pessimistic hg, List.mem_cons_self⟩
    | foreign hg => exact ⟨_, .pessimistic hg, List.mem_cons_of_mem _ (List.mem_singleton_self _)⟩
    | reactive hc => exact ⟨_, .reactivated hc, List.mem_singleton_self _⟩
    | exported hc => exact ⟨_, .exported hc, List.mem_singleton_self _⟩
    | fires hx => exact ⟨_, .fires hx, List.mem_singleton_self _⟩

theorem edges_callFacts_append (h : p.WellFormed) {facts : List Fact}
    (hfacts : ∀ fact ∈ facts, fact.edges = []) {assumed : Option ConstraintId} :
    (fun x y => (x, y) ∈ Ledger.edges { told := p.callFacts ++ facts, assumed }) = p.Link := by
  have hnone : facts.flatMap Fact.edges = [] := List.flatMap_eq_nil_iff.mpr hfacts
  funext x y
  rw [Ledger.edges, List.flatMap_append, hnone, List.append_nil]
  exact propext (mem_edges_callFacts h)

theorem danglingCall?_eq_none (h : p.WellFormed) : p.danglingCall? = none := by
  refine List.findSome?_eq_none_iff.mpr fun r hr => List.findSome?_eq_none_iff.mpr fun g hg => ?_
  cases g with
  | call c args =>
    obtain ⟨k, hk, _⟩ := h.called r hr c args hg
    simp [hk]
  | builtIn _ | triggering | pessimistic | free => rfl

theorem mem_active {o : Occurrence} : o ∈ p.active ↔ o ∈ p.occurrences ∧ o.isActive = true :=
  List.mem_filter

theorem partnerFacts?_eq_some (h : p.Arranged) : ∃ facts, p.partnerFacts? = some facts ∧
    ∀ fact, fact ∈ facts ↔
      ∃ x c, p.LooksUp x c ∧ fact = .related .observes (.constraint c) (.constraint x) := by
  refine exists_flatten_mapM (P := fun o fact => ∃ q ∈ p.occurrences,
    q.rule = o.rule ∧ q.id ≠ o.id ∧
    fact = .related .observes (.constraint q.constraint) (.constraint o.constraint))
      (fun o ho => ?_) fun fact => ?_
  · obtain ⟨ids, qs, hids, hqs, hmem⟩ := h.partners_eq (mem_active.mp ho).1
    simp only [hids, hqs, Option.bind_eq_bind, Option.bind_some]
    refine ⟨_, rfl, fun fact => ?_⟩
    simp only [List.mem_map, hmem]
    constructor
    · rintro ⟨q, ⟨hq, hr, hne⟩, rfl⟩
      exact ⟨q, hq, hr, hne, rfl⟩
    · rintro ⟨q, hq, hr, hne, rfl⟩
      exact ⟨q, ⟨hq, hr, hne⟩, rfl⟩
  · constructor
    · rintro ⟨o, ho, q, hq, hr, hne, rfl⟩
      exact ⟨o.constraint, q.constraint, ⟨o, ho, rfl, q, hq, hr, hne, rfl⟩, rfl⟩
    · rintro ⟨_, _, ⟨o, ho, rfl, q, hq, hr, hne, rfl⟩, rfl⟩
      exact ⟨o, ho, q, hq, hr, hne, rfl⟩

theorem removalFacts?_eq_some (h : p.Arranged) : ∃ facts, p.removalFacts? = some facts ∧
    ∀ fact, fact ∈ facts ↔
      ∃ x c, p.Consumes x c ∧ fact = .related .removes (.constraint x) (.constraint c) := by
  refine exists_flatten_mapM (P := fun o fact => ∃ q ∈ p.occurrences,
    q.rule = o.rule ∧ q.head = .positive ∧
    q.removed = true ∧
      fact = .related .removes (.constraint o.constraint) (.constraint q.constraint))
    (fun o ho => ?_) fun fact => ?_
  · obtain ⟨r, hr, hro, hid⟩ := h.rule_mem (mem_active.mp ho).1
    obtain ⟨head, hhead, hmem⟩ := h.head_eq hr
    simp only [hro, hhead, Option.bind_eq_bind, Option.bind_some]
    refine ⟨_, rfl, fun fact => ?_⟩
    simp only [List.mem_map, List.mem_filter, hmem, hid]
    constructor
    · rintro ⟨q, ⟨⟨hq, hqr, hpos⟩, hrem⟩, rfl⟩
      exact ⟨q, hq, hqr, hpos, hrem, rfl⟩
    · rintro ⟨q, hq, hqr, hpos, hrem, rfl⟩
      exact ⟨q, ⟨⟨hq, hqr, hpos⟩, hrem⟩, rfl⟩
  · constructor
    · rintro ⟨o, ho, q, hq, hqr, hpos, hrem, rfl⟩
      exact ⟨o.constraint, q.constraint, ⟨o, ho, rfl, q, hq, hqr, hpos, hrem, rfl⟩, rfl⟩
    · rintro ⟨_, _, ⟨o, ho, rfl, q, hq, hqr, hpos, hrem, rfl⟩, rfl⟩
      exact ⟨o, ho, q, hq, hqr, hpos, hrem, rfl⟩

theorem stackFacts?_eq_some (h : p.Arranged) : ∃ facts, p.stackFacts? = some facts ∧
    ∀ fact, fact ∈ facts ↔
      ∃ x, p.NeedsStack x ∧ fact = .related .activates (.constraint x) (.constraint x) := by
  refine exists_flatten_mapM
    (P := fun o fact => (∃ b, p.Runs o.rule (.builtIn b) ∧ b.needsStack = true) ∧
    fact = .related .activates (.constraint o.constraint) (.constraint o.constraint))
      (fun o ho => ?_) fun fact => ?_
  · obtain ⟨r, _, hro, _⟩ := h.rule_mem (mem_active.mp ho).1
    simp only [hro, Option.bind_eq_bind, Option.bind_some]
    refine ⟨_, rfl, fun fact => ?_⟩
    simp only [List.mem_ite_nil_right, List.mem_singleton, List.any_eq_true]
    refine and_congr_left' ⟨?_, ?_⟩
    · rintro ⟨g, hg, hb⟩
      cases g with
      | builtIn b => exact ⟨b, ⟨r, hro, hg⟩, hb⟩
      | call | triggering | pessimistic | free => cases hb
    · rintro ⟨b, ⟨r', hr', hg⟩, hb⟩
      rw [hro] at hr'
      cases hr'
      exact ⟨_, hg, hb⟩
  · constructor
    · rintro ⟨o, ho, hb, rfl⟩
      exact ⟨o.constraint, ⟨o, ho, rfl, hb⟩, rfl⟩
    · rintro ⟨_, ⟨o, ho, rfl, hb⟩, rfl⟩
      exact ⟨o, ho, hb, rfl⟩

theorem callSession?_of_dangling {d : DanglingCall} (hd : p.danglingCall? = some d)
    (facts : Option (List Fact)) :
    p.callSession? facts = some (.error d) := by
  rw [callSession?, hd]

theorem callSession?_of_none (hd : p.danglingCall? = none) (facts : List Fact) :
    p.callSession? (some facts) = some (.ok (.ofFacts (p.callFacts ++ facts))) := by
  rw [callSession?, hd, Option.map_some]

theorem callSession?_eq (h : p.WellFormed) (facts : List Fact) :
    p.callSession? (some facts) = some (.ok (.ofFacts (p.callFacts ++ facts))) :=
  callSession?_of_none (danglingCall?_eq_none h) facts

theorem observationSession?_of_dangling (h : p.Arranged) {d : DanglingCall}
    (hd : p.danglingCall? = some d) :
    p.observationSession? = some (.error d) := by
  obtain ⟨partners, hpartners, _⟩ := partnerFacts?_eq_some h
  simp only [observationSession?, hpartners, hd, Option.bind_eq_bind, Option.bind_some]

theorem observationSession?_of_none (h : p.Arranged) (hd : p.danglingCall? = none) :
    ∃ s, p.observationSession? = some (.ok s) := by
  obtain ⟨partners, hpartners, _⟩ := partnerFacts?_eq_some h
  exact ⟨_,
    by simp only [observationSession?, hpartners, hd, Option.bind_eq_bind, Option.bind_some]; rfl⟩

/-- Heads in order are all that it takes to load the calls and partner searches, or else to
find a call that dangles. -/
theorem observationSession?_cases (h : p.Arranged) :
    (∃ d, p.observationSession? = some (.error d)) ∨ ∃ s, p.observationSession? = some (.ok s) := by
  cases hd : p.danglingCall? with
  | some d => exact Or.inl ⟨d, observationSession?_of_dangling h hd⟩
  | none => exact Or.inr (observationSession?_of_none h hd)

theorem callSession?_cases (p : Program) (facts : List Fact) :
    (∃ d, p.callSession? (some facts) = some (.error d)) ∨
      ∃ s, p.callSession? (some facts) = some (.ok s) := by
  cases hd : p.danglingCall? with
  | some d => exact Or.inl ⟨d, callSession?_of_dangling hd _⟩
  | none => exact Or.inr ⟨_, callSession?_of_none hd facts⟩

/-- The session answers questions about the bodies of the program by their closures. -/
structure KnownTo (p : Program) (s : Session) : Prop where
  bodySees : ∀ (c : ConstraintId) (r : RuleId), s.bodySees c r = true ↔ p.BodyObserves r c
  reactivates : ∀ (r : RuleId) (c : ConstraintId),
    s.holds (.reactivates (.body r) c) = true ↔ p.Reactive c ∧ p.ReachesTrigger r
  activates : ∀ (r : RuleId) (c : ConstraintId),
    s.holds (.related .activates (.body r) (.constraint c)) = true ↔ p.Activates r c

theorem KnownTo.rememberAll {s : Session} (h : p.KnownTo s) (xs : List Node) :
    p.KnownTo (s.rememberAll xs) where
  bodySees c r := by
    rw [← h.bodySees c r, Session.bodySees, Session.bodySees, Session.holds_eq, Session.holds_eq]
    simp only [Session.setAssumption, Session.rememberAll_facts]
  reactivates r c := by
    rw [← h.reactivates r c, Session.holds_eq, Session.holds_eq, Session.rememberAll_facts]
  activates r c := by
    rw [← h.activates r c, Session.holds_eq, Session.holds_eq, Session.rememberAll_facts]

section Session

variable {partners : List Fact} {assumed : Option ConstraintId}
  (hmem : ∀ fact, fact ∈ partners ↔
    ∃ x c, p.LooksUp x c ∧ fact = .related .observes (.constraint c) (.constraint x))

include hmem

theorem mem_loaded (h : p.WellFormed) {fact : Fact} :
    fact ∈ p.callFacts ++ partners ↔ p.Tells fact ∨
    ∃ x c, p.LooksUp x c ∧ fact = .related .observes (.constraint c) (.constraint x) := by
  rw [List.mem_append, mem_callFacts h, hmem]

theorem tells_loaded (h : p.WellFormed) {fact : Fact}
    (hfact : ∀ x y, fact ≠ .related .observes x y) :
    fact ∈ p.callFacts ++ partners ↔ p.Tells fact := by
  rw [mem_loaded hmem h]
  constructor
  · rintro (ht | ⟨x, c, _, he⟩)
    · exact ht
    · exact absurd he (hfact _ _)
  · exact Or.inl

theorem observes_loaded (h : p.WellFormed) {c : ConstraintId} {y : Node} :
    Fact.related .observes (.constraint c) y ∈ p.callFacts ++ partners ↔
      ∃ x, y = .constraint x ∧ p.LooksUp x c := by
  rw [mem_loaded hmem h]
  constructor
  · rintro (ht | ⟨x, _, hx, he⟩)
    · cases ht
    · cases he
      exact ⟨x, rfl, hx⟩
  · rintro ⟨x, rfl, hx⟩
    exact Or.inr ⟨x, c, hx, rfl⟩

/-- Partner searches add no edges, so what a body leads to is its closure. -/
theorem leads_loaded (h : p.WellFormed) {r : RuleId} {n : Node} :
    Ledger.Leads { told := p.callFacts ++ partners, assumed } (.body r) n ↔ p.Reaches r n := by
  have hnone : ∀ fact ∈ partners, fact.edges = [] := fun fact hfact => by
    obtain ⟨_, _, _, rfl⟩ := (hmem fact).mp hfact
    rfl
  rw [← path_iff_reaches, Ledger.Leads, edges_callFacts_append h hnone]

theorem observes_loaded_iff (h : p.WellFormed) {r : RuleId} {c : ConstraintId} :
    Ledger.Observes { told := p.callFacts ++ partners, assumed := some c } c (.body r) ↔
      p.BodyObserves r c := by
  have hcovers : ∀ d,
      Ledger.Covers { told := p.callFacts ++ partners, assumed := some c } (.body r)
        (.constraint d) ↔ p.Activates r d := fun d => by
    simp [Ledger.Covers, leads_loaded hmem h, Reaches]
  simp (disch := simp) only [Ledger.Observes, observes_loaded hmem h, tells_loaded hmem h,
    tells_reactivated_iff, tells_exported_iff, leads_loaded hmem h, hcovers, BodyObserves, Reaches,
    true_and]
  constructor
  · rintro (⟨_, hy, x, rfl, hx⟩ | hc | ht | hf)
    · exact Or.inr (Or.inl ⟨x, (hcovers x).mp hy, hx⟩)
    · exact Or.inl hc
    · exact Or.inr (Or.inr (Or.inl ht))
    · exact Or.inr (Or.inr (Or.inr hf))
  · rintro (hc | ⟨x, hact, hx⟩ | ht | hf)
    · exact Or.inr (Or.inl hc)
    · exact Or.inl ⟨_, (hcovers x).mpr hact, x, rfl, hx⟩
    · exact Or.inr (Or.inr (Or.inl ht))
    · exact Or.inr (Or.inr (Or.inr hf))

end Session

theorem observationSession?_known (h : p.WellFormed) :
    ∃ s, p.observationSession? = some (.ok s) ∧ p.KnownTo s := by
  obtain ⟨partners, hpartners, hmem⟩ := partnerFacts?_eq_some h.toArranged
  have hrefl := Session.ofFacts_reflects (p.callFacts ++ partners)
  refine ⟨.ofFacts (p.callFacts ++ partners), ?_, fun c r => ?_, fun r c => ?_, fun r c => ?_⟩
  · simp [observationSession?, hpartners, danglingCall?_eq_none h]
  · rw [Session.bodySees_iff hrefl, observes_loaded_iff hmem h]
  · rw [Session.holds_eq, hrefl.holds_iff]
    simp (disch := simp) only [Ledger.Holds, tells_loaded hmem h, tells_reactivated_iff,
      leads_loaded hmem h, Reaches]
  · rw [Session.holds_eq, hrefl.holds_iff]
    simp only [Ledger.Holds, leads_loaded hmem h, Reaches]

end Loading

end Program

end ConstraintRules
