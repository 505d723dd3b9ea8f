import ConstraintRules.Proofs.WellFormed
import ConstraintRules.Program.Build

/-! Building yields well-formed programs without annotations, and only adds to
what is there. -/

namespace ConstraintRules

theorem getElem?_append_cases {α : Type} {xs ys : List α} {i : Nat} {y : α}
    (h : (xs ++ ys)[i]? = some y) :
    xs[i]? = some y ∨ ∃ j, i = xs.length + j ∧ ys[j]? = some y := by
  by_cases hi : i < xs.length
  · rw [List.getElem?_append_left hi] at h
    exact Or.inl h
  · rw [List.getElem?_append_right (by omega)] at h
    exact Or.inr ⟨i - xs.length, by omega, h⟩

theorem concat_eq_append_cons_iff {α : Type} {xs before after : List α} {x y : α} :
    xs ++ [x] = before ++ y :: after ↔
      (before = xs ∧ y = x ∧ after = []) ∨
        ∃ rest, xs = before ++ y :: rest ∧ after = rest ++ [x] := by
  constructor
  · intro h
    rcases List.eq_nil_or_concat after with rfl | ⟨rest, z, rfl⟩
    · obtain ⟨hxs, hx⟩ := List.append_inj' h rfl
      exact Or.inl ⟨hxs.symm, (List.cons.inj hx).1.symm, rfl⟩
    · rw [List.concat_eq_append, ← List.cons_append, ← List.append_assoc] at h
      obtain ⟨hxs, hx⟩ := List.append_inj' h rfl
      exact Or.inr ⟨rest, hxs, by rw [List.concat_eq_append, hx]⟩
  · rintro (⟨rfl, rfl, rfl⟩ | ⟨rest, rfl, rfl⟩)
    · rfl
    · simp

theorem getElem?_of_isPrefix {α : Type} {xs ys : List α} (h : xs <+: ys) {i : Nat} {x : α}
    (hx : xs[i]? = some x) :
    ys[i]? = some x := by
  obtain ⟨t, rfl⟩ := h
  obtain ⟨hi, _⟩ := List.getElem?_eq_some_iff.mp hx
  rw [List.getElem?_append_left hi]
  exact hx

namespace Program

/-- What `p` has, `q` has at the same place, up to the list of a constraint's occurrences. -/
structure Extends (p q : Program) : Prop where
  constraint? : ∀ (c : ConstraintId) (k : Constraint), p.constraint? c = some k →
    ∃ os, q.constraint? c = some { k with occurrences := os }
  rules : p.rules <+: q.rules
  occurrences : p.occurrences <+: q.occurrences

namespace Extends

variable {p q s : Program}

theorem refl (p : Program) : p.Extends p where
  constraint? _ k hk := ⟨k.occurrences, hk⟩
  rules := List.prefix_rfl
  occurrences := List.prefix_rfl

theorem trans (h : p.Extends q) (h' : q.Extends s) : p.Extends s where
  constraint? c k hk := by
    obtain ⟨os, hos⟩ := h.constraint? c k hk
    exact h'.constraint? c { k with occurrences := os } hos
  rules := h.rules.trans h'.rules
  occurrences := h.occurrences.trans h'.occurrences

theorem rule? (h : p.Extends q) {r : RuleId} {rule : Rule} (hr : p.rule? r = some rule) :
    q.rule? r = some rule :=
  getElem?_of_isPrefix h.rules hr

theorem occurrence? (h : p.Extends q) {o : OccurrenceId} {u : Occurrence}
    (hu : p.occurrence? o = some u) :
    q.occurrence? o = some u :=
  getElem?_of_isPrefix h.occurrences hu

theorem misapplied? (h : p.Extends q) {c : ConstraintId} {n : Nat} (hc : p.misapplied? c n = none) :
    q.misapplied? c n = none := by
  unfold Program.misapplied? at hc ⊢
  cases hk : p.constraint? c with
  | none => simp [hk] at hc
  | some k =>
    obtain ⟨os, hos⟩ := h.constraint? c k hk
    simp only [hk] at hc
    simp only [hos]
    by_cases ha : k.arity = n
    · simp [ha]
    · simp [ha] at hc

end Extends

theorem misapplied?_eq_none {p : Program} {c : ConstraintId} {n : Nat} :
    p.misapplied? c n = none ↔ ∃ k, p.constraint? c = some k ∧ k.arity = n := by
  unfold misapplied?
  cases p.constraint? c <;> simp

theorem WellFormed.extend {p q : Program} {rules : List Rule} {new : List Occurrence}
    (h : p.WellFormed) (he : p.Extends q)
    (hrules : q.rules = p.rules ++ rules) (hnew : q.occurrences = p.occurrences ++ new)
    (hcid : ∀ (i : Nat) (c : Constraint), q.constraints[i]? = some c → c.id = ⟨i⟩)
    (hrid : ∀ (i : Nat) (r : Rule), rules[i]? = some r → r.id = ⟨p.rules.length + i⟩)
    (hoid : ∀ (i : Nat) (o : Occurrence), new[i]? = some o → o.id = ⟨p.occurrences.length + i⟩)
    (hdeclared : ∀ o ∈ new, q.misapplied? o.constraint o.arity = none)
    (hplaced : ∀ o ∈ new, ∃ r, q.rule? o.rule = some r ∧ (r.part o.head)[o.index]? = some o.id)
    (hresolved : ∀ r ∈ rules, ∀ (part : HeadPart) (i : Nat) (id : OccurrenceId),
      (r.part part)[i]? = some id →
      ∃ o, q.occurrence? id = some o ∧ o.rule = r.id ∧ o.head = part ∧ o.index = i)
    (hhead : ∀ r ∈ rules, r.head ≠ [])
    (hcalled : ∀ r ∈ rules, ∀ (c : ConstraintId) (args : List VarId), Goal.call c args ∈ r.body →
      q.misapplied? c args.length = none) : q.WellFormed where
  constraint_id := hcid
  rule_id i r hr := by
    rw [hrules] at hr
    rcases getElem?_append_cases hr with hr | ⟨j, rfl, hj⟩
    · exact h.rule_id i r hr
    · exact hrid j r hj
  occurrence_id i o ho := by
    rw [hnew] at ho
    rcases getElem?_append_cases ho with ho | ⟨j, rfl, hj⟩
    · exact h.occurrence_id i o ho
    · exact hoid j o hj
  declared o ho := by
    rw [hnew] at ho
    rcases List.mem_append.mp ho with ho | ho
    · obtain ⟨c, hc, ha⟩ := h.declared o ho
      obtain ⟨os, hos⟩ := he.constraint? _ c hc
      exact ⟨_, hos, ha⟩
    · exact misapplied?_eq_none.mp (hdeclared o ho)
  placed o ho := by
    rw [hnew] at ho
    rcases List.mem_append.mp ho with ho | ho
    · obtain ⟨r, hr, hp⟩ := h.placed o ho
      exact ⟨r, he.rule? hr, hp⟩
    · exact hplaced o ho
  resolved r hr part i id hid := by
    rw [hrules] at hr
    rcases List.mem_append.mp hr with hr | hr
    · obtain ⟨o, ho, hrest⟩ := h.resolved r hr part i id hid
      exact ⟨o, he.occurrence? ho, hrest⟩
    · exact hresolved r hr part i id hid
  head_ne_nil r hr := by
    rw [hrules] at hr
    rcases List.mem_append.mp hr with hr | hr
    · exact h.head_ne_nil r hr
    · exact hhead r hr
  called r hr c args hc := by
    rw [hrules] at hr
    rcases List.mem_append.mp hr with hr | hr
    · obtain ⟨k, hk, ha⟩ := h.called r hr c args hc
      obtain ⟨os, hos⟩ := he.constraint? _ k hk
      exact ⟨_, hos, ha⟩
    · exact misapplied?_eq_none.mp (hcalled r hr c args hc)

end Program

theorem SymbolTable.length_internAll (t : SymbolTable) (names : List String) :
    (t.internAll names).1.length = names.length := by
  induction names generalizing t with
  | nil => rfl
  | cons name names ih => simp [internAll, ih]

/-- Every application in the draft fits the constraints of the program, and what is negated
waits to be found and stays. -/
structure Draft.Fits (p : Program) (d : Draft) : Prop where
  positive : ∀ o ∈ d.positive, p.misapplied? o.constraint o.args.length = none
  negatives : ∀ n ∈ d.negatives, ∀ o ∈ n.occurrences,
    p.misapplied? o.constraint o.args.length = none ∧ o.passive = true ∧ o.removed = false
  body : ∀ (c : ConstraintId) (args : List VarId), Goal.call c args ∈ d.body →
    p.misapplied? c args.length = none

namespace Draft.Fits

variable {p : Program} {d : Draft}

theorem fail (h : d.Fits p) (e : ModelError) : (d.fail e).Fits p :=
  ⟨h.positive, h.negatives, h.body⟩

theorem apply (h : d.Fits p) {c : ConstraintId} {args : List String}
    {next : List VarId → Draft → Draft}
    (hnext : ∀ (vs : List VarId) (vars : SymbolTable), p.misapplied? c vs.length = none →
      (next vs { d with vars }).Fits p) : (d.apply p c args next).Fits p := by
  unfold Draft.apply
  cases hm : p.misapplied? c args.length with
  | some e => exact h.fail e
  | none =>
    apply hnext
    rw [List.length_map, SymbolTable.length_internAll]
    exact hm

theorem markPassive (h : d.Fits p) : d.markPassive.Fits p := by
  unfold Draft.markPassive
  cases hl : d.positive.getLast? with
  | none => exact h.fail _
  | some o =>
    refine ⟨fun u hu => ?_, h.negatives, h.body⟩
    rcases List.mem_append.mp hu with hu | hu
    · exact h.positive u ((List.dropLast_sublist _).subset hu)
    · rw [List.mem_singleton.mp hu]
      exact h.positive o (List.mem_of_getLast? hl)

theorem addNegatedGuard (h : d.Fits p) (g : GuardConjunct) : (d.addNegatedGuard g).Fits p := by
  unfold Draft.addNegatedGuard
  cases hl : d.negatives.getLast? with
  | none => exact ⟨h.positive, h.negatives, h.body⟩
  | some n =>
    refine ⟨h.positive, fun m hm => ?_, h.body⟩
    rcases List.mem_append.mp hm with hm | hm
    · exact h.negatives m ((List.dropLast_sublist _).subset hm)
    · rw [List.mem_singleton.mp hm]
      exact h.negatives n (List.mem_of_getLast? hl)

theorem addGoal (h : d.Fits p) {g : Goal}
    (hg : ∀ (c : ConstraintId) (args : List VarId), g = .call c args →
      p.misapplied? c args.length = none) :
    (d.addGoal g).Fits p := by
  refine ⟨h.positive, h.negatives, fun c args hc => ?_⟩
  rcases List.mem_append.mp hc with hc | hc
  · exact h.body c args hc
  · exact hg c args (List.mem_singleton.mp hc).symm

theorem addPositive (h : d.Fits p) {o : DraftOccurrence}
    (ho : p.misapplied? o.constraint o.args.length = none) :
    Fits p { d with positive := d.positive ++ [o] } := by
  refine ⟨fun u hu => ?_, h.negatives, h.body⟩
  rcases List.mem_append.mp hu with hu | hu
  · exact h.positive u hu
  · rw [List.mem_singleton.mp hu]
    exact ho

theorem addNegative (h : d.Fits p) {o : DraftOccurrence}
    (ho : p.misapplied? o.constraint o.args.length = none ∧ o.passive = true ∧ o.removed = false) :
    Fits p { d with negatives := d.negatives ++ [{ occurrences := [o] }] } := by
  refine ⟨h.positive, fun n hn u hu => ?_, h.body⟩
  rcases List.mem_append.mp hn with hn | hn
  · exact h.negatives n hn u hu
  · rw [List.mem_singleton.mp hn] at hu
    rw [List.mem_singleton.mp hu]
    exact ho

theorem take (h : d.Fits p) (step : RuleStep) : (d.take p step).Fits p := by
  have hvars (vars : SymbolTable) : Fits p { d with vars } := ⟨h.positive, h.negatives, h.body⟩
  cases step with
  | kept c args =>
    rw [Draft.take]
    exact h.apply fun vs vars hc => (hvars vars).addPositive hc
  | removed c args =>
    rw [Draft.take]
    exact h.apply fun vs vars hc => (hvars vars).addPositive hc
  | passive => exact h.markPassive
  | negated c args =>
    rw [Draft.take]
    exact h.apply fun vs vars hc => (hvars vars).addNegative ⟨hc, rfl, rfl⟩
  | negatedEqual left right =>
    have hd : (d.equality left right).2.Fits p := ⟨h.positive, h.negatives, h.body⟩
    exact hd.addNegatedGuard _
  | guardEqual left right => exact ⟨h.positive, h.negatives, h.body⟩
  | guardTest names => exact ⟨h.positive, h.negatives, h.body⟩
  | call c args =>
    rw [Draft.take]
    refine h.apply fun vs vars hc => (hvars vars).addGoal fun c' args' he => ?_
    cases he
    exact hc
  | builtIn b => exact h.addGoal fun _ _ he => by cases he
  | triggering => exact h.addGoal fun _ _ he => by cases he
  | pessimistic => exact h.addGoal fun _ _ he => by cases he
  | free => exact h.addGoal fun _ _ he => by cases he

theorem foldl_take (h : d.Fits p) (steps : List RuleStep) :
    (steps.foldl (Draft.take p) d).Fits p := by
  induction steps generalizing d with
  | nil => exact h
  | cons step steps ih => exact ih (h.take step)

theorem ofSteps (p : Program) (name : String) (steps : List RuleStep) :
    (Draft.ofSteps p name steps).Fits p :=
  foldl_take ⟨by simp, by simp, by simp⟩ steps

end Draft.Fits

theorem Draft.fault?_eq_none {d : Draft} :
    d.fault? = none ↔ d.misuse = none ∧ d.positive ≠ [] ∧ d.unbound? = none := by
  unfold fault?
  cases d.misuse with
  | some e => simp
  | none => by_cases hnil : d.positive = [] <;> simp [hnil]

/-- The constraint after further occurrences have been listed. -/
def Constraint.list (k : Constraint) (new : List Occurrence) : Constraint :=
  { k with occurrences := k.occurrences ++ new.map Occurrence.id }

/-- The occurrence that a draft becomes at its place in a program. -/
def DraftOccurrence.place (d : DraftOccurrence) (id : OccurrenceId) (rule : RuleId)
    (head : HeadPart) (index number : Nat) : Occurrence where
  id := id
  constraint := d.constraint
  rule := rule
  head := head
  index := index
  number := number
  passive := d.passive
  removed := d.removed
  args := d.args
  stored := true
  checkHistory := true
  lookups := []

def Occurrence.draft (o : Occurrence) : DraftOccurrence where
  constraint := o.constraint
  args := o.args
  removed := o.removed
  passive := o.passive

namespace Program

/-- New occurrences of a rule have been appended, and their constraints list them. -/
structure Appended (p q : Program) (rule : RuleId) (new : List Occurrence) : Prop where
  symbols_eq : q.symbols = p.symbols
  rules_eq : q.rules = p.rules
  occurrences_eq : q.occurrences = p.occurrences ++ new
  constraint?_eq : ∀ c, q.constraint? c = (p.constraint? c).map fun k =>
    k.list (new.filter fun o => o.constraint = c)
  numbered : ∀ (i : Nat) (o : Occurrence), new[i]? = some o → o.id = ⟨p.occurrences.length + i⟩
  listed : ∀ o ∈ new, ∀ k, q.constraint? o.constraint = some k →
    0 < o.number ∧ k.occurrences[o.number - 1]? = some o.id
  rule_eq : ∀ o ∈ new, o.rule = rule
  bare_eq : ∀ o ∈ new, o.bare = o

namespace Appended

variable {p q s : Program} {rule : RuleId} {new more : List Occurrence}

theorem nil (p : Program) (rule : RuleId) : p.Appended p rule [] where
  symbols_eq := rfl
  rules_eq := rfl
  occurrences_eq := (List.append_nil _).symm
  constraint?_eq c := by cases p.constraint? c <;> simp [Constraint.list]
  numbered := by simp
  listed := by simp
  rule_eq := by simp
  bare_eq := by simp

theorem append (h : p.Appended q rule new) (h' : q.Appended s rule more) :
    p.Appended s rule (new ++ more) where
  symbols_eq := h'.symbols_eq.trans h.symbols_eq
  rules_eq := h'.rules_eq.trans h.rules_eq
  occurrences_eq := by rw [h'.occurrences_eq, h.occurrences_eq, List.append_assoc]
  constraint?_eq c := by
    rw [h'.constraint?_eq, h.constraint?_eq, Option.map_map]
    congr 1
    funext k
    simp [Constraint.list]
  numbered i o ho := by
    rcases getElem?_append_cases ho with ho | ⟨j, rfl, hj⟩
    · exact h.numbered i o ho
    · rw [h'.numbered j o hj, h.occurrences_eq, List.length_append, Nat.add_assoc]
  listed o ho k hk := by
    rcases List.mem_append.mp ho with ho | ho
    · rw [h'.constraint?_eq] at hk
      obtain ⟨l, hl, rfl⟩ := Option.map_eq_some_iff.mp hk
      obtain ⟨hpos, hat⟩ := h.listed o ho l hl
      exact ⟨hpos, getElem?_of_isPrefix (List.prefix_append _ _) hat⟩
    · exact h'.listed o ho k hk
  rule_eq o ho := (List.mem_append.mp ho).elim (h.rule_eq o) (h'.rule_eq o)
  bare_eq o ho := (List.mem_append.mp ho).elim (h.bare_eq o) (h'.bare_eq o)

end Appended

theorem appendOccurrence_appended (p : Program) (rule : RuleId) (head : HeadPart) (index : Nat)
    (d : DraftOccurrence) : ∃ o : Occurrence,
      p.Appended (p.appendOccurrence rule head index d).2 rule [o] ∧
        (p.appendOccurrence rule head index d).1 = o.id ∧ o.head = head ∧ o.index = index ∧
          o.draft = d := by
  refine ⟨d.place ⟨p.occurrences.length⟩ rule head index _,
    ⟨rfl, rfl, rfl, fun c => ?_, ?_, ?_, ?_, ?_⟩, rfl, rfl, rfl, rfl⟩
  · have hc : d.constraint = c ↔ d.constraint.index = c.index :=
      ⟨congrArg _, fun hi => congrArg ConstraintId.mk hi⟩
    simp only [appendOccurrence, constraint?, modifyConstraint, List.getElem?_modify,
      DraftOccurrence.place]
    by_cases hi : d.constraint.index = c.index
    · cases p.constraints[c.index]? <;> simp [hi, hc, Constraint.list]
    · cases p.constraints[c.index]? <;> simp [hi, hc, Constraint.list]
  · intro i u hu
    cases i with
    | zero =>
      simp only [List.getElem?_cons_zero, Option.some.injEq] at hu
      subst hu
      rfl
    | succ i => simp at hu
  · intro u hu k hk
    rw [List.mem_singleton.mp hu] at hk ⊢
    simp only [appendOccurrence, constraint?, modifyConstraint, List.getElem?_modify,
      DraftOccurrence.place] at hk
    obtain ⟨l, hl, rfl⟩ := Option.map_eq_some_iff.mp hk
    simp [DraftOccurrence.place, constraint?, hl]
  · simp [DraftOccurrence.place]
  · simp [DraftOccurrence.place, Occurrence.bare]

theorem appendHead_appended (p : Program) (rule : RuleId) (head : HeadPart) (index : Nat)
    (ds : List DraftOccurrence) : ∃ new : List Occurrence,
      p.Appended (p.appendHead rule head index ds).2 rule new ∧
        (p.appendHead rule head index ds).1 = new.map Occurrence.id ∧
        (∀ (i : Nat) (o : Occurrence), new[i]? = some o → o.head = head ∧ o.index = index + i) ∧
        new.map Occurrence.draft = ds := by
  induction ds generalizing p index with
  | nil => exact ⟨[], .nil p rule, rfl, by simp, rfl⟩
  | cons d ds ih =>
    obtain ⟨o, ho, hid, hhead, hindex, hdraft⟩ := p.appendOccurrence_appended rule head index d
    obtain ⟨new, hnew, hids, hplace, hds⟩ := ih (p.appendOccurrence rule head index d).2 (index + 1)
    refine ⟨o :: new, ho.append hnew, ?_, ?_, by rw [List.map_cons, hdraft, hds]⟩
    · simp only [appendHead, List.map_cons, hids, hid]
    · intro i u hu
      cases i with
      | zero =>
        simp only [List.getElem?_cons_zero, Option.some.injEq] at hu
        subst hu
        exact ⟨hhead, hindex⟩
      | succ i =>
        obtain ⟨h1, h2⟩ := hplace i u (by simpa using hu)
        exact ⟨h1, by omega⟩

theorem appendNegatives_appended (p : Program) (rule : RuleId) (n : Nat) (ds : List DraftNegative) :
    ∃ news : List (List Occurrence),
      p.Appended (p.appendNegatives rule n ds).2 rule news.flatten ∧
        (p.appendNegatives rule n ds).1.map NegativeHead.occurrences =
          news.map (List.map Occurrence.id) ∧
        (∀ (k : Nat) (os : List Occurrence), news[k]? = some os →
          ∀ (i : Nat) (o : Occurrence), os[i]? = some o →
            o.head = .negative (n + k) ∧ o.index = i) ∧
        news.map (List.map Occurrence.draft) = ds.map DraftNegative.occurrences := by
  induction ds generalizing p n with
  | nil => exact ⟨[], .nil p rule, rfl, by simp, rfl⟩
  | cons d ds ih =>
    obtain ⟨new, hnew, hids, hplace, hds⟩ :=
      p.appendHead_appended rule (.negative n) 0 d.occurrences
    obtain ⟨news, hnews, hidss, hplaces, hdss⟩ :=
      ih (p.appendHead rule (.negative n) 0 d.occurrences).2 (n + 1)
    refine ⟨new :: news, hnew.append hnews, ?_, ?_, ?_⟩
    · simp only [appendNegatives, List.map_cons, hids, hidss]
    · intro k os hos i o ho
      cases k with
      | zero =>
        simp only [List.getElem?_cons_zero, Option.some.injEq] at hos
        subst hos
        obtain ⟨h1, h2⟩ := hplace i o ho
        exact ⟨h1, by omega⟩
      | succ k =>
        obtain ⟨h1, h2⟩ := hplaces k os (by simpa using hos) i o ho
        exact ⟨by rw [h1, Nat.add_assoc, Nat.add_comm 1 k], h2⟩
    · simp only [List.map_cons, hds, hdss]

theorem appendNegatives_guard (p : Program) (rule : RuleId) (n : Nat) (ds : List DraftNegative) :
    (p.appendNegatives rule n ds).1.map NegativeHead.guard = ds.map DraftNegative.guard := by
  induction ds generalizing p n with
  | nil => rfl
  | cons d ds ih => simp only [appendNegatives, List.map_cons, ih]

def draftRule (p : Program) (d : Draft) : Rule where
  id := ⟨p.rules.length⟩
  name := d.name
  kind := .ofRemoved (d.positive.map DraftOccurrence.removed)
  head := (p.appendHead ⟨p.rules.length⟩ .positive 0 d.positive).1
  negatives := ((p.appendHead ⟨p.rules.length⟩ .positive 0 d.positive).2.appendNegatives
    ⟨p.rules.length⟩ 0 d.negatives).1
  guard := d.guard
  body := d.body
  needsHistory := true
  hints := none

/-- Appending a rule: its occurrences, those of the positive head first, and the rule itself,
whose parts name them in order. -/
theorem appendRule_spec (p : Program) (d : Draft) : ∃ (q : Program) (pos : List Occurrence)
    (negs : List (List Occurrence)), p.Appended q ⟨p.rules.length⟩ (pos ++ negs.flatten) ∧
      (p.appendRule d).2 = { q with rules := p.rules ++ [p.draftRule d] } ∧
      (p.draftRule d).head = pos.map Occurrence.id ∧
      (p.draftRule d).negatives.map NegativeHead.occurrences = negs.map (List.map Occurrence.id) ∧
      (∀ (i : Nat) (o : Occurrence), pos[i]? = some o → o.head = .positive ∧ o.index = i) ∧
      (∀ (k : Nat) (os : List Occurrence), negs[k]? = some os →
        ∀ (i : Nat) (o : Occurrence), os[i]? = some o → o.head = .negative k ∧ o.index = i) ∧
      pos.map Occurrence.draft = d.positive ∧
      negs.map (List.map Occurrence.draft) = d.negatives.map DraftNegative.occurrences := by
  obtain ⟨pos, hpos, hids, hplace, hds⟩ :=
    p.appendHead_appended ⟨p.rules.length⟩ .positive 0 d.positive
  obtain ⟨negs, hnegs, hidss, hplaces, hdss⟩ :=
    (p.appendHead ⟨p.rules.length⟩ .positive 0 d.positive).2.appendNegatives_appended
      ⟨p.rules.length⟩ 0 d.negatives
  refine ⟨_, pos, negs, hpos.append hnegs, ?_, hids, hidss, ?_, ?_, hds, hdss⟩
  · have hrules := (hpos.append hnegs).rules_eq
    simp only [appendRule, draftRule, hrules]
  · intro i o ho
    obtain ⟨h1, h2⟩ := hplace i o ho
    exact ⟨h1, by omega⟩
  · intro k os hos i o ho
    obtain ⟨h1, h2⟩ := hplaces k os hos i o ho
    exact ⟨by rw [h1, Nat.zero_add], h2⟩

theorem Appended.isExtension {p q : Program} {rule : RuleId} {new : List Occurrence}
    (h : p.Appended q rule new) :
    p.Extends q where
  constraint? c k hk := ⟨_, by rw [h.constraint?_eq, hk, Option.map_some]; rfl⟩
  rules := h.rules_eq ▸ List.prefix_rfl
  occurrences := ⟨new, h.occurrences_eq.symm⟩

theorem appendRule_extends (p : Program) (d : Draft) : p.Extends (p.appendRule d).2 := by
  obtain ⟨q, pos, negs, hq, heq, _⟩ := p.appendRule_spec d
  rw [heq]
  exact ⟨hq.isExtension.constraint?, List.prefix_append _ _, hq.isExtension.occurrences⟩

theorem appendConstraint_extends (p : Program) (d : Declaration) :
    p.Extends (p.appendConstraint d).2 where
  constraint? _ k hk := ⟨k.occurrences, getElem?_of_isPrefix (List.prefix_append _ _) hk⟩
  rules := List.prefix_rfl
  occurrences := List.prefix_rfl

/-- What a build step can do. -/
theorem perform_cases (p : Program) (step : BuildStep) :
    (p.perform step).2 = p ∨
      (∃ d : Declaration, p.constraintNamed? d.name = none ∧ d.wrongArgTypes? = none ∧
        d.wrongDependency? = none ∧
        (p.perform step).2 = (p.appendConstraint d).2) ∨
      ∃ name steps, (Draft.ofSteps p name steps).fault? = none ∧
        (p.perform step).2 = (p.appendRule (Draft.ofSteps p name steps)).2 := by
  cases step with
  | ensure name arity =>
    simp only [perform, ensureConstraint]
    cases hname : p.constraintNamed? name with
    | some _ => exact Or.inl rfl
    | none => exact Or.inr (Or.inl ⟨{ name, arity }, hname, rfl, rfl, rfl⟩)
  | declare d =>
    simp only [perform, declare]
    cases hname : p.constraintNamed? d.name with
    | some _ => exact Or.inl rfl
    | none =>
      cases hwrong : d.wrongArgTypes? <|> d.wrongDependency? with
      | some _ => exact Or.inl rfl
      | none =>
        obtain ⟨htypes, hdependency⟩ :=
          Option.or_eq_none_iff.mp ((Option.orElse_eq_or).symm.trans hwrong)
        exact Or.inr (Or.inl ⟨d, hname, htypes, hdependency, rfl⟩)
  | rule name steps =>
    simp only [perform, addRule]
    cases hf : (Draft.ofSteps p name steps).fault? with
    | some _ => exact Or.inl rfl
    | none => exact Or.inr (Or.inr ⟨name, steps, hf, rfl⟩)

theorem perform_extends (p : Program) (step : BuildStep) : p.Extends (p.perform step).2 := by
  rcases p.perform_cases step with he | ⟨d, _, _, _, he⟩ | ⟨name, steps, _, he⟩
  · rw [he]
    exact .refl p
  · rw [he]
    exact p.appendConstraint_extends d
  · rw [he]
    exact p.appendRule_extends _

theorem foldl_perform_extends (p : Program) (steps : List BuildStep) :
    p.Extends (steps.foldl (fun p step => (p.perform step).2) p) := by
  induction steps generalizing p with
  | nil => exact .refl p
  | cons step steps ih => exact (p.perform_extends step).trans (ih _)

theorem build_append_extends (steps further : List BuildStep) :
    (build steps).Extends (build (steps ++ further)) := by
  rw [build, build, List.foldl_append]
  exact foldl_perform_extends _ further

theorem appendConstraint_wellFormed {p : Program} (h : p.WellFormed) (d : Declaration) :
    (p.appendConstraint d).2.WellFormed := by
  refine h.extend (p.appendConstraint_extends d) (List.append_nil _).symm
    (List.append_nil _).symm ?_
    (by simp) (by simp) (by simp) (by simp) (by simp) (by simp) (by simp)
  intro i c hc
  rcases getElem?_append_cases hc with hc | ⟨j, rfl, hj⟩
  · exact h.constraint_id i c hc
  · cases j with
    | zero =>
      simp only [List.getElem?_cons_zero, Option.some.injEq] at hj
      subst hj
      rfl
    | succ j => simp at hj

theorem appendRule_wellFormed {p : Program} (h : p.WellFormed) {d : Draft} (hd : d.Fits p)
    (hne : d.positive ≠ []) : (p.appendRule d).2.WellFormed := by
  have hext := p.appendRule_extends d
  obtain ⟨q, pos, negs, hq, heq, hhead, hnegs, hpos, hneg, hdpos, hdneg⟩ := p.appendRule_spec d
  rw [heq] at hext ⊢
  have hpart : ∀ k, (p.draftRule d).part (.negative k) =
      ((negs[k]?).map (List.map Occurrence.id)).getD [] := by
    intro k
    have hk := congrArg (fun l : List (List OccurrenceId) => l[k]?) hnegs
    simp only [List.getElem?_map] at hk
    rw [Rule.part, hk]
  have hrule : Program.rule? { q with rules := p.rules ++ [p.draftRule d] } ⟨p.rules.length⟩ =
      some (p.draftRule d) := by simp [Program.rule?]
  have hfound : ∀ o ∈ pos ++ negs.flatten,
      Program.occurrence? { q with rules := p.rules ++ [p.draftRule d] } o.id = some o := by
    intro o ho
    obtain ⟨i, hi⟩ := List.mem_iff_getElem?.mp ho
    rw [hq.numbered i o hi, Program.occurrence?, hq.occurrences_eq,
      List.getElem?_append_right (Nat.le_add_right _ _)]
    simpa using hi
  refine h.extend hext rfl hq.occurrences_eq ?_ ?_ hq.numbered ?_ ?_ ?_ ?_ ?_
  · intro i c hc
    have hi := hq.constraint?_eq ⟨i⟩
    rw [show q.constraint? ⟨i⟩ = some c from hc] at hi
    obtain ⟨k, hk, rfl⟩ := Option.map_eq_some_iff.mp hi.symm
    exact h.constraint_id i k hk
  · intro i r hr
    cases i with
    | zero =>
      simp only [List.getElem?_cons_zero, Option.some.injEq] at hr
      subst hr
      rfl
    | succ i => simp at hr
  · intro o ho
    apply hext.misapplied?
    rcases List.mem_append.mp ho with ho | ho
    · exact hd.positive o.draft (hdpos ▸ List.mem_map_of_mem ho)
    · obtain ⟨os, hos, ho⟩ := List.mem_flatten.mp ho
      have hmem : os.map Occurrence.draft ∈ d.negatives.map DraftNegative.occurrences :=
        hdneg ▸ List.mem_map_of_mem hos
      obtain ⟨n, hn, hnos⟩ := List.mem_map.mp hmem
      exact (hd.negatives n hn o.draft (hnos ▸ List.mem_map_of_mem ho)).1
  · intro o ho
    refine ⟨p.draftRule d, by rw [hq.rule_eq o ho, hrule], ?_⟩
    rcases List.mem_append.mp ho with ho | ho
    · obtain ⟨i, hi⟩ := List.mem_iff_getElem?.mp ho
      obtain ⟨h1, h2⟩ := hpos i o hi
      rw [h1, h2, Rule.part, hhead, List.getElem?_map, hi, Option.map_some]
    · obtain ⟨os, hos, ho⟩ := List.mem_flatten.mp ho
      obtain ⟨k, hk⟩ := List.mem_iff_getElem?.mp hos
      obtain ⟨i, hi⟩ := List.mem_iff_getElem?.mp ho
      obtain ⟨h1, h2⟩ := hneg k os hk i o hi
      rw [h1, h2, hpart, hk, Option.map_some, Option.getD_some, List.getElem?_map, hi,
        Option.map_some]
  · intro r hr part i id hid
    rw [List.mem_singleton.mp hr] at hid ⊢
    cases part with
    | positive =>
      rw [Rule.part, hhead, List.getElem?_map] at hid
      obtain ⟨o, ho, rfl⟩ := Option.map_eq_some_iff.mp hid
      have hmem : o ∈ pos ++ negs.flatten := List.mem_append_left _ (List.mem_of_getElem? ho)
      exact ⟨o, hfound o hmem, hq.rule_eq o hmem, hpos i o ho⟩
    | negative k =>
      rw [hpart] at hid
      cases hk : negs[k]? with
      | none => simp [hk] at hid
      | some os =>
        rw [hk, Option.map_some, Option.getD_some, List.getElem?_map] at hid
        obtain ⟨o, ho, rfl⟩ := Option.map_eq_some_iff.mp hid
        have hmem : o ∈ pos ++ negs.flatten := List.mem_append_right _
          (List.mem_flatten.mpr ⟨os, List.mem_of_getElem? hk, List.mem_of_getElem? ho⟩)
        exact ⟨o, hfound o hmem, hq.rule_eq o hmem, hneg k os hk i o ho⟩
  · intro r hr
    rw [List.mem_singleton.mp hr, hhead]
    intro hnil
    rw [List.map_eq_nil_iff] at hnil
    rw [hnil] at hdpos
    exact hne hdpos.symm
  · intro r hr c args hc
    rw [List.mem_singleton.mp hr] at hc
    exact hext.misapplied? (hd.body c args hc)

theorem perform_wellFormed {p : Program} (h : p.WellFormed) (step : BuildStep) :
    (p.perform step).2.WellFormed := by
  rcases p.perform_cases step with he | ⟨d, _, _, _, he⟩ | ⟨name, steps, hf, he⟩
  · rw [he]
    exact h
  · rw [he]
    exact appendConstraint_wellFormed h d
  · rw [he]
    exact appendRule_wellFormed h (Draft.Fits.ofSteps p name steps) (Draft.fault?_eq_none.mp hf).2.1

/-- Whatever build steps preserve holds of every program that is built. -/
theorem build_induction {P : Program → Prop} (hempty : P {})
    (hstep : ∀ (p : Program) (step : BuildStep), P p → P (p.perform step).2)
    (steps : List BuildStep) :
    P (build steps) := by
  have hrun : ∀ p : Program, P p → P (steps.foldl (fun p step => (p.perform step).2) p) := by
    induction steps with
    | nil => exact fun p h => h
    | cons step steps ih => exact fun p h => ih _ (hstep p step h)
  exact hrun {} hempty

theorem empty_wellFormed : WellFormed {} where
  constraint_id := by simp
  rule_id := by simp
  occurrence_id := by simp
  declared := by simp
  placed := by simp
  resolved := by simp
  head_ne_nil := by simp
  called := by simp

theorem build_wellFormed (steps : List BuildStep) : (build steps).WellFormed :=
  build_induction empty_wellFormed (fun _ step h => perform_wellFormed h step) steps

/-- No pass has written anything. -/
structure Unannotated (p : Program) : Prop where
  constraints : ∀ c ∈ p.constraints, c.bare = c
  rules : ∀ r ∈ p.rules, r.bare = r
  occurrences : ∀ o ∈ p.occurrences, o.bare = o

theorem Unannotated.perform {p : Program} (h : p.Unannotated) (step : BuildStep) :
    (p.perform step).2.Unannotated := by
  rcases p.perform_cases step with he | ⟨d, _, _, _, he⟩ | ⟨name, steps, _, he⟩
  · rw [he]
    exact h
  · rw [he]
    refine ⟨fun c hc => ?_, h.rules, h.occurrences⟩
    rcases List.mem_append.mp hc with hc | hc
    · exact h.constraints c hc
    · rw [List.mem_singleton.mp hc]
      rfl
  · obtain ⟨q, pos, negs, hq, heq, _⟩ := p.appendRule_spec (Draft.ofSteps p name steps)
    rw [he, heq]
    refine ⟨fun c hc => ?_, fun r hr => ?_, fun o ho => ?_⟩
    · obtain ⟨i, hi⟩ := List.mem_iff_getElem?.mp hc
      have hk := hq.constraint?_eq ⟨i⟩
      rw [show q.constraint? ⟨i⟩ = some c from hi] at hk
      obtain ⟨k, hold, rfl⟩ := Option.map_eq_some_iff.mp hk.symm
      have hb := h.constraints k (List.mem_of_getElem? hold)
      rw [← hb]
      rfl
    · rcases List.mem_append.mp hr with hr | hr
      · exact h.rules r hr
      · rw [List.mem_singleton.mp hr]
        rfl
    · rw [hq.occurrences_eq] at ho
      exact (List.mem_append.mp ho).elim (h.occurrences o) (hq.bare_eq o)

theorem build_unannotated (steps : List BuildStep) : (build steps).Unannotated :=
  build_induction (P := Unannotated) ⟨by simp, by simp,
    by simp⟩ (fun _ step h => h.perform step) steps

end Program

end ConstraintRules
