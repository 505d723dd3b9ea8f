import ConstraintRules.Proofs.JoinOrder
import Mathlib.Data.List.Pairwise

/-! Coherence of built programs. Names, lists of occurrences and kinds of rules
are kept in step by every build step. -/

namespace ConstraintRules

namespace SymbolTable

variable {t : SymbolTable} {name : String}

theorem get?_intern (t : SymbolTable) (name : String) :
    (t.intern name).2.get? name = some (t.intern name).1 := by
  cases h : t.get? name with
  | some s => rw [intern_of_get?_eq_some h, h]
  | none =>
    rw [intern_of_get?_eq_none h]
    exact List.lookup_cons_self

theorem resolve?_intern (t : SymbolTable) (name : String) :
    (t.intern name).2.resolve? (t.intern name).1 = some name :=
  get?_eq_some_iff.mp (t.get?_intern name)

theorem names_intern_isPrefix (t : SymbolTable) (name : String) :
    t.names <+: (t.intern name).2.names := by
  cases h : t.get? name with
  | some s => simp [intern_of_get?_eq_some h]
  | none => simp [intern_of_get?_eq_none h, push]

end SymbolTable

namespace Program

section Registered

variable {p : Program}

/-- Every constraint has a symbol to itself, a type for each argument, and a dependency
on positions that it has. -/
structure Registered (p : Program) : Prop where
  symbol_lt : ∀ c ∈ p.constraints, c.name.index < p.symbols.names.length
  nodup_names : (p.constraints.map Constraint.name).Nodup
  typed : ∀ c ∈ p.constraints, c.argTypes.length = c.arity
  dependent : ∀ c ∈ p.constraints, ∀ key, c.dependency = some key → ∀ k ∈ key, k < c.arity

theorem name_ne_of_constraintNamed?_eq_none {name : String} (h : p.constraintNamed? name = none)
    {s : Symbol} (hs : p.symbols.get? name = some s) : ∀ c ∈ p.constraints, c.name ≠ s := by
  intro c hc he
  cases hfind : p.constraints.find? (fun c => decide (c.name = s)) with
  | none => exact List.find?_eq_none.mp hfind c hc (decide_eq_true he)
  | some k => simp [constraintNamed?, hs, hfind] at h

theorem Registered.appendConstraint (h : p.Registered) {d : Declaration}
    (hfree : p.constraintNamed? d.name = none) (htypes : d.wrongArgTypes? = none)
    (hdependency : d.wrongDependency? = none) :
    (p.appendConstraint d).2.Registered := by
  have hgrow : p.symbols.names.length ≤ (p.symbols.intern d.name).2.names.length :=
    (p.symbols.names_intern_isPrefix d.name).length_le
  have hnew : ∀ c ∈ p.constraints, c.name ≠ (p.symbols.intern d.name).1 := by
    intro c hc
    cases hget : p.symbols.get? d.name with
    | some s =>
      rw [SymbolTable.intern_of_get?_eq_some hget]
      exact name_ne_of_constraintNamed?_eq_none hfree hget c hc
    | none =>
      rw [SymbolTable.intern_of_get?_eq_none hget]
      intro he
      have hlt := h.symbol_lt c hc
      rw [he] at hlt
      exact Nat.lt_irrefl _ hlt
  refine ⟨?_, ?_, ?_, ?_⟩
  · intro c hc
    rcases List.mem_append.mp hc with hc | hc
    · exact Nat.lt_of_lt_of_le (h.symbol_lt c hc) hgrow
    · rw [List.mem_singleton.mp hc]
      exact (List.getElem?_eq_some_iff.mp (p.symbols.resolve?_intern d.name)).1
  · have hconcat :
        ((p.constraints.map Constraint.name).concat (p.symbols.intern d.name).1).Nodup := by
      refine h.nodup_names.concat fun hmem => ?_
      obtain ⟨c, hc, he⟩ := List.mem_map.mp hmem
      exact hnew c hc he
    rw [List.concat_eq_append] at hconcat
    change ((p.constraints ++ [_]).map Constraint.name).Nodup
    rw [List.map_append]
    exact hconcat
  · intro c hc
    rcases List.mem_append.mp hc with hc | hc
    · exact h.typed c hc
    · rw [List.mem_singleton.mp hc]
      cases htys : d.argTypes with
      | none => simp
      | some types => simpa [Declaration.wrongArgTypes?, htys] using htypes
  · intro c hc key hkey k hk
    rcases List.mem_append.mp hc with hc | hc
    · exact h.dependent c hc key hkey k hk
    · rw [List.mem_singleton.mp hc] at hkey ⊢
      have hkey' : d.dependency = some key := hkey
      cases hfind : key.find? (fun k => decide (d.arity ≤ k)) with
      | none =>
        have hno := List.find?_eq_none.mp hfind k hk
        simpa using hno
      | some j => simp [Declaration.wrongDependency?, hkey', hfind] at hdependency

theorem Appended.map_constraints {q : Program} {rule : RuleId} {new : List Occurrence}
    (h : p.Appended q rule new)
    {α : Type} {f : Constraint → α} (hf : ∀ k new, f (k.list new) = f k) :
    q.constraints.map f = p.constraints.map f := by
  apply List.ext_getElem?
  intro i
  have hi : q.constraints[i]? = _ := h.constraint?_eq ⟨i⟩
  rw [List.getElem?_map, List.getElem?_map, hi, Option.map_map]
  exact congrArg (Option.map · _) (funext fun k => hf k _)

theorem Registered.appended (h : p.Registered) {q : Program} {rule : RuleId} {new : List Occurrence}
    (hq : p.Appended q rule new) : q.Registered := by
  have hold : ∀ c ∈ q.constraints, ∃ k ∈ p.constraints, ∃ new, c = k.list new := by
    intro c hc
    obtain ⟨i, hi⟩ := List.mem_iff_getElem?.mp hc
    have hk : q.constraints[i]? = _ := hq.constraint?_eq ⟨i⟩
    rw [hi] at hk
    obtain ⟨k, hold, rfl⟩ := Option.map_eq_some_iff.mp hk.symm
    exact ⟨k, List.mem_of_getElem? hold, _, rfl⟩
  refine ⟨?_, ?_, ?_, ?_⟩
  · intro c hc
    obtain ⟨k, hk, new, rfl⟩ := hold c hc
    exact hq.symbols_eq ▸ h.symbol_lt k hk
  · rw [hq.map_constraints fun _ _ => rfl]
    exact h.nodup_names
  · intro c hc
    obtain ⟨k, hk, new, rfl⟩ := hold c hc
    exact h.typed k hk
  · intro c hc
    obtain ⟨k, hk, new, rfl⟩ := hold c hc
    exact h.dependent k hk

theorem Registered.resolve?_name (h : p.Registered) {c : Constraint} (hc : c ∈ p.constraints) :
    p.symbols.resolve? c.name = some (p.nameOf c) := by
  have hlt := h.symbol_lt c hc
  simp [nameOf, SymbolTable.resolve?, List.getElem?_eq_getElem hlt]

theorem Registered.eq_of_name_eq (h : p.Registered) {c k : Constraint} (hc : c ∈ p.constraints)
    (hk : k ∈ p.constraints) (he : c.name = k.name) : c = k :=
  List.inj_on_of_nodup_map h.nodup_names hc hk he

theorem Registered.nodup_nameOf (h : p.Registered) : (p.constraints.map p.nameOf).Nodup := by
  refine List.Nodup.map_on (fun c hc k hk he => ?_) h.nodup_names.of_map
  have hget := SymbolTable.get?_eq_some_iff.mpr (h.resolve?_name hc)
  have hget' := SymbolTable.get?_eq_some_iff.mpr (h.resolve?_name hk)
  rw [he, hget'] at hget
  exact h.eq_of_name_eq hc hk (Option.some.inj hget).symm

theorem Registered.constraintNamed?_nameOf (h : p.Registered) {c : Constraint}
    (hc : c ∈ p.constraints) :
    p.constraintNamed? (p.nameOf c) = some c.id := by
  have hget := SymbolTable.get?_eq_some_iff.mpr (h.resolve?_name hc)
  cases hfind : p.constraints.find? (fun k => decide (k.name = c.name)) with
  | none =>
    have hno := List.find?_eq_none.mp hfind c hc
    exact absurd (decide_eq_true rfl) hno
  | some k =>
    have hname : k.name = c.name := by simpa using List.find?_some hfind
    have hkc := h.eq_of_name_eq (List.mem_of_find?_eq_some hfind) hc hname
    rw [constraintNamed?, hget, Option.bind_eq_bind, Option.bind_some, hfind, hkc]
    rfl

end Registered

section Enlisted

variable {p : Program}

/-- Every constraint lists its occurrences in the order of their declaration, and every
occurrence has the number of its place there. -/
structure Enlisted (p : Program) : Prop where
  occurrences_eq : ∀ (c : ConstraintId) (k : Constraint), p.constraint? c = some k →
    k.occurrences = (p.occurrences.filter fun o => o.constraint = c).map Occurrence.id
  numbered : ∀ o ∈ p.occurrences, ∀ k, p.constraint? o.constraint = some k →
    0 < o.number ∧ k.occurrences[o.number - 1]? = some o.id

theorem Enlisted.appended (h : p.Enlisted) {q : Program} {rule : RuleId} {new : List Occurrence}
    (hq : p.Appended q rule new) : q.Enlisted where
  occurrences_eq c k hk := by
    rw [hq.constraint?_eq] at hk
    obtain ⟨l, hl, rfl⟩ := Option.map_eq_some_iff.mp hk
    rw [hq.occurrences_eq, List.filter_append, List.map_append, ← h.occurrences_eq c l hl]
    rfl
  numbered o ho k hk := by
    rw [hq.occurrences_eq] at ho
    rcases List.mem_append.mp ho with ho | ho
    · rw [hq.constraint?_eq] at hk
      obtain ⟨l, hl, rfl⟩ := Option.map_eq_some_iff.mp hk
      obtain ⟨hpos, hat⟩ := h.numbered o ho l hl
      exact ⟨hpos, getElem?_of_isPrefix (List.prefix_append _ _) hat⟩
    · exact hq.listed o ho k hk

theorem Enlisted.appendConstraint (h : p.Enlisted) (hw : p.WellFormed) (d : Declaration) :
    (p.appendConstraint d).2.Enlisted := by
  have hdeclared : ∀ o ∈ p.occurrences, o.constraint.index < p.constraints.length := by
    intro o ho
    obtain ⟨c, hc, _⟩ := hw.declared o ho
    exact (List.getElem?_eq_some_iff.mp hc).1
  constructor
  · intro c k hk
    rcases getElem?_append_cases hk with hk | ⟨j, hc, hj⟩
    · exact h.occurrences_eq c k hk
    · -- nothing can be an occurrence of the constraint that is new
      have hnone : p.occurrences.filter (fun o => decide (o.constraint = c)) = [] := by
        refine List.filter_eq_nil_iff.mpr fun o ho he => ?_
        have hlt := hdeclared o ho
        rw [of_decide_eq_true he] at hlt
        omega
      change k.occurrences =
        (p.occurrences.filter fun o => decide (o.constraint = c)).map Occurrence.id
      rw [List.mem_singleton.mp (List.mem_of_getElem? hj), hnone]
      rfl
  · intro o ho k hk
    rcases getElem?_append_cases hk with hk | ⟨j, hc, _⟩
    · exact h.numbered o ho k hk
    · have hlt := hdeclared o ho
      omega

theorem Enlisted.ascending (h : p.Enlisted) (hw : p.WellFormed) {c : Constraint}
    (hc : c ∈ p.constraints) :
    c.occurrences.Pairwise fun a b => a.index < b.index := by
  rw [h.occurrences_eq c.id c (hw.constraint?_id hc), List.pairwise_map]
  exact hw.pairwise_id_lt.filter _

theorem Arranged.nodup_ids (h : p.Arranged) : (p.occurrences.map Occurrence.id).Nodup :=
  List.Nodup.map_on (fun _ ho _ hu he => h.eq_of_id_eq ho hu he) h.nodup_occurrences

theorem Enlisted.perm (h : p.Enlisted) (hw : p.WellFormed) :
    (p.constraints.flatMap Constraint.occurrences).Perm (p.occurrences.map Occurrence.id) := by
  have hmem : ∀ c ∈ p.constraints, ∀ id, id ∈ c.occurrences ↔
      ∃ o ∈ p.occurrences, o.constraint = c.id ∧ o.id = id := by
    intro c hc id
    rw [h.occurrences_eq c.id c (hw.constraint?_id hc)]
    simp [and_assoc]
  have hlists : (p.constraints.flatMap Constraint.occurrences).Nodup := by
    refine List.nodup_flatMap.mpr ⟨fun c hc => ?_, ?_⟩
    · exact (h.ascending hw hc).imp fun hlt he =>
        absurd (congrArg OccurrenceId.index he) (Nat.ne_of_lt hlt)
    · have hpair := List.pairwise_map.mp hw.constraints_pairwise
      refine hpair.imp_of_mem fun {c k} hc hk hlt id hid hid' => ?_
      obtain ⟨o, ho, hoc, rfl⟩ := (hmem c hc id).mp hid
      obtain ⟨u, hu, huk, he⟩ := (hmem k hk o.id).mp hid'
      rw [hw.eq_of_id_eq hu ho he] at huk
      rw [← hoc, ← huk] at hlt
      exact Nat.lt_irrefl _ hlt
  refine (List.perm_ext_iff_of_nodup hlists hw.nodup_ids).mpr fun id => ?_
  rw [List.mem_flatMap, List.mem_map]
  constructor
  · rintro ⟨c, hc, hid⟩
    obtain ⟨o, ho, _, he⟩ := (hmem c hc id).mp hid
    exact ⟨o, ho, he⟩
  · rintro ⟨o, ho, rfl⟩
    obtain ⟨c, hc, _⟩ := hw.declared o ho
    have hcm := List.mem_of_getElem? hc
    exact ⟨c, hcm, (hmem c hcm o.id).mpr ⟨o, ho, (hw.id_of_constraint? hc).symm, rfl⟩⟩

end Enlisted

section Governed

variable {p q : Program} {r : Rule}

/-- The kind of a rule says which occurrences of its positive head a firing removes. -/
def HasKind (p : Program) (r : Rule) : Prop :=
  match r.kind with
  | .propagation => ∀ o, p.InHead r .positive o → o.removed = false
  | .simplification => ∀ o, p.InHead r .positive o → o.removed = true
  | .simpagation => (∃ o, p.InHead r .positive o ∧ o.removed = true) ∧
    ∃ o, p.InHead r .positive o ∧ o.removed = false

/-- A guard asks only about variables of the positive head and of the part that it belongs to. -/
def GuardsBound (p : Program) (r : Rule) : Prop :=
  ∀ part, ∀ g ∈ r.ownGuard part, ∀ v ∈ g.vars, ∃ o,
    (p.InHead r .positive o ∨ p.InHead r part o) ∧ v ∈ o.args

structure Governed (p : Program) : Prop where
  aside : ∀ o ∈ p.occurrences, o.head ≠ .positive → o.passive = true ∧ o.removed = false
  kind : ∀ r ∈ p.rules, p.HasKind r
  bound : ∀ r ∈ p.rules, p.GuardsBound r

theorem hasKind_of_kind_eq {os : List Occurrence} (hos : ∀ o, p.InHead r .positive o ↔ o ∈ os)
    (hkind : r.kind = .ofRemoved (os.map Occurrence.removed)) : p.HasKind r := by
  unfold HasKind
  rw [hkind, RuleKind.ofRemoved]
  simp only [hos]
  cases hany : (os.map Occurrence.removed).any id with
  | false =>
    have hnone : ∀ o ∈ os, o.removed = false := by simpa using hany
    exact hnone
  | true =>
    cases hall : (os.map Occurrence.removed).all id with
    | true =>
      have heach : ∀ o ∈ os, o.removed = true := by simpa using hall
      exact heach
    | false =>
      have hsome : ∃ o ∈ os, o.removed = true := by simpa using hany
      have hother : ∃ o ∈ os, o.removed = false := by simpa using hall
      exact ⟨hsome, hother⟩

theorem HasKind.congr (h : p.HasKind r) (he : ∀ part o, q.InHead r part o ↔ p.InHead r part o) :
    q.HasKind r := by
  unfold HasKind at h ⊢
  simpa only [he] using h

theorem GuardsBound.congr (h : p.GuardsBound r)
    (he : ∀ part o, q.InHead r part o ↔ p.InHead r part o) :
    q.GuardsBound r := by
  unfold GuardsBound at h ⊢
  simpa only [he] using h

theorem appendRule_inHead (h : p.WellFormed) (d : Draft) :
    ∃ (pos : List Occurrence) (negs : List (List Occurrence)),
    pos.map Occurrence.draft = d.positive ∧
      negs.map (List.map Occurrence.draft) = d.negatives.map DraftNegative.occurrences ∧
      (∀ o, o ∈ (p.appendRule d).2.occurrences ↔ o ∈ p.occurrences ∨ o ∈ pos ∨ o ∈ negs.flatten) ∧
      (∀ r ∈ p.rules, ∀ part o, (p.appendRule d).2.InHead r part o ↔ p.InHead r part o) ∧
      (∀ o, (p.appendRule d).2.InHead (p.draftRule d) .positive o ↔ o ∈ pos) ∧
      ∀ (k : Nat) (os : List Occurrence), negs[k]? = some os → ∀ o ∈ os,
        (p.appendRule d).2.InHead (p.draftRule d) (.negative k) o := by
  obtain ⟨q, pos, negs, hq, heq, _, _, hpos, hneg, hdpos, hdneg⟩ := p.appendRule_spec d
  have hmem : ∀ o, o ∈ (p.appendRule d).2.occurrences ↔
      o ∈ p.occurrences ∨ o ∈ pos ∨ o ∈ negs.flatten := by
    intro o
    rw [heq, ← List.mem_append, ← List.mem_append, ← hq.occurrences_eq]
  have hnew : ∀ o, o ∈ pos ∨ o ∈ negs.flatten → o.rule = ⟨p.rules.length⟩ := fun o ho =>
    hq.rule_eq o (List.mem_append.mpr ho)
  have hearlier : ∀ o ∈ p.occurrences, o.rule.index < p.rules.length := by
    intro o ho
    obtain ⟨r, hr, _⟩ := h.placed o ho
    exact (List.getElem?_eq_some_iff.mp hr).1
  have hpositive : ∀ o ∈ pos, o.head = .positive := by
    intro o ho
    obtain ⟨i, hi⟩ := List.mem_iff_getElem?.mp ho
    exact (hpos i o hi).1
  have hnegative : ∀ (k : Nat) (os : List Occurrence), negs[k]? = some os →
      ∀ o ∈ os, o.head = .negative k := by
    intro k os hk o ho
    obtain ⟨i, hi⟩ := List.mem_iff_getElem?.mp ho
    exact (hneg k os hk i o hi).1
  refine ⟨pos, negs, hdpos, hdneg, hmem, ?_, ?_, ?_⟩
  · intro r hr part o
    have hlt := (List.getElem?_eq_some_iff.mp (h.rule?_id hr)).1
    constructor
    · rintro ⟨ho, hrule, hhead⟩
      rcases (hmem o).mp ho with ho | ho
      · exact ⟨ho, hrule, hhead⟩
      · rw [← hrule, hnew o ho] at hlt
        exact absurd hlt (Nat.lt_irrefl _)
    · rintro ⟨ho, hrule, hhead⟩
      exact ⟨(hmem o).mpr (Or.inl ho), hrule, hhead⟩
  · intro o
    constructor
    · rintro ⟨ho, hrule, hhead⟩
      rcases (hmem o).mp ho with ho | ho | ho
      · have hlt := hearlier o ho
        rw [hrule] at hlt
        exact absurd hlt (Nat.lt_irrefl _)
      · exact ho
      · obtain ⟨os, hos, ho⟩ := List.mem_flatten.mp ho
        obtain ⟨k, hk⟩ := List.mem_iff_getElem?.mp hos
        rw [hnegative k os hk o ho] at hhead
        cases hhead
    · intro ho
      exact ⟨(hmem o).mpr (Or.inr (Or.inl ho)), hnew o (Or.inl ho), hpositive o ho⟩
  · intro k os hk o ho
    have hflat : o ∈ negs.flatten := List.mem_flatten.mpr ⟨os, List.mem_of_getElem? hk, ho⟩
    exact ⟨(hmem o).mpr (Or.inr (Or.inr hflat)), hnew o (Or.inr hflat), hnegative k os hk o ho⟩

theorem mem_scope_of_unbound?_eq_none {d : Draft} (h : d.unbound? = none)
    {guard : List GuardConjunct} {scope : List VarId} (hs : (guard, scope) ∈ d.scopes) :
    ∀ g ∈ guard, ∀ v ∈ g.vars, v ∈ scope := by
  intro g hg v hv
  have hno := List.findSome?_eq_none_iff.mp h (guard, scope) hs
  have hv' := List.find?_eq_none.mp hno v (List.mem_flatMap.mpr ⟨g, hg, hv⟩)
  simpa using hv'

theorem exists_mem_args {os : List Occurrence} {v : VarId}
    (h : v ∈ (os.map Occurrence.draft).flatMap DraftOccurrence.args) : ∃ o ∈ os, v ∈ o.args := by
  rw [List.flatMap_map] at h
  exact List.mem_flatMap.mp h

theorem draftRule_guardsBound (h : p.WellFormed) {d : Draft} (hbound : d.unbound? = none) :
    (p.appendRule d).2.GuardsBound (p.draftRule d) := by
  obtain ⟨pos, negs, hdpos, hdneg, _, _, hfirst, hkth⟩ := appendRule_inHead h d
  have hpositive : ∀ v ∈ d.positiveVars, ∃ o,
      (p.appendRule d).2.InHead (p.draftRule d) .positive o ∧ v ∈ o.args := by
    intro v hv
    rw [Draft.positiveVars, ← hdpos] at hv
    obtain ⟨o, ho, hvo⟩ := exists_mem_args hv
    exact ⟨o, (hfirst o).mpr ho, hvo⟩
  intro part g hg v hv
  cases part with
  | positive =>
    have hscope : (d.guard, d.positiveVars) ∈ d.scopes := List.mem_cons_self
    obtain ⟨o, ho, hvo⟩ := hpositive v (mem_scope_of_unbound?_eq_none hbound hscope g hg v hv)
    exact ⟨o, Or.inl ho, hvo⟩
  | negative k =>
    have hguard : (p.draftRule d).negatives.map NegativeHead.guard =
        d.negatives.map DraftNegative.guard :=
      appendNegatives_guard ..
    have hk := congrArg (fun l : List (List GuardConjunct) => l[k]?) hguard
    have hdk := congrArg (fun l : List (List DraftOccurrence) => l[k]?) hdneg
    simp only [List.getElem?_map] at hk hdk
    rw [Rule.ownGuard, hk] at hg
    cases hn : d.negatives[k]? with
    | none => simp [hn] at hg
    | some n =>
      rw [hn, Option.map_some, Option.getD_some] at hg
      rw [hn, Option.map_some] at hdk
      obtain ⟨os, hos, hocc⟩ := Option.map_eq_some_iff.mp hdk
      have hscope :
          (n.guard, d.positiveVars ++ n.occurrences.flatMap DraftOccurrence.args) ∈ d.scopes :=
        List.mem_cons_of_mem _ (List.mem_map.mpr ⟨n, List.mem_of_getElem? hn, rfl⟩)
      rcases List.mem_append.mp (mem_scope_of_unbound?_eq_none hbound hscope g hg v hv) with hv | hv
      · obtain ⟨o, ho, hvo⟩ := hpositive v hv
        exact ⟨o, Or.inl ho, hvo⟩
      · rw [← hocc] at hv
        obtain ⟨o, ho, hvo⟩ := exists_mem_args hv
        exact ⟨o, Or.inr (hkth k os hos o ho), hvo⟩

theorem mem_rules_appendRule {d : Draft} :
    r ∈ (p.appendRule d).2.rules ↔ r ∈ p.rules ∨ r = p.draftRule d := by
  obtain ⟨q, _, _, _, heq, _⟩ := p.appendRule_spec d
  rw [heq, List.mem_append, List.mem_singleton]

theorem Governed.appendRule (h : p.Governed) (hw : p.WellFormed) {d : Draft} (hd : d.Fits p)
    (hbound : d.unbound? = none) : (p.appendRule d).2.Governed := by
  obtain ⟨pos, negs, hdpos, hdneg, hmem, hold, hfirst, _⟩ := appendRule_inHead hw d
  refine ⟨fun o ho hhead => ?_, fun r hr => ?_, fun r hr => ?_⟩
  · rcases (hmem o).mp ho with ho | ho | ho
    · exact h.aside o ho hhead
    · exact absurd ((hfirst o).mpr ho).2.2 hhead
    · obtain ⟨os, hos, ho⟩ := List.mem_flatten.mp ho
      have hdraft : os.map Occurrence.draft ∈ d.negatives.map DraftNegative.occurrences :=
        hdneg ▸ List.mem_map_of_mem hos
      obtain ⟨n, hn, hocc⟩ := List.mem_map.mp hdraft
      exact (hd.negatives n hn o.draft (hocc ▸ List.mem_map_of_mem ho)).2
  · rcases mem_rules_appendRule.mp hr with hr | rfl
    · exact (h.kind r hr).congr (hold r hr)
    · refine hasKind_of_kind_eq hfirst ?_
      rw [draftRule, ← hdpos, List.map_map]
      rfl
  · rcases mem_rules_appendRule.mp hr with hr | rfl
    · exact (h.bound r hr).congr (hold r hr)
    · exact draftRule_guardsBound hw hbound

end Governed

section Coherent

variable {p : Program}

/-- What every build step keeps. -/
structure Kept (p : Program) : Prop where
  wellFormed : p.WellFormed
  registered : p.Registered
  enlisted : p.Enlisted
  governed : p.Governed

theorem empty_kept : Kept {} where
  wellFormed := empty_wellFormed
  registered := ⟨by simp, List.nodup_nil, by simp, by simp⟩
  enlisted := ⟨by simp [constraint?], by simp⟩
  governed := ⟨by simp, by simp, by simp⟩

theorem Kept.perform (h : p.Kept) (step : BuildStep) : (p.perform step).2.Kept := by
  have hw := perform_wellFormed h.wellFormed step
  rcases p.perform_cases step with he | ⟨d, hfree, htypes, hdependency, he⟩ | ⟨name, steps, hf, he⟩
  · rw [he]
    exact h
  · rw [he] at hw ⊢
    exact ⟨hw, h.registered.appendConstraint hfree htypes hdependency,
      h.enlisted.appendConstraint h.wellFormed d,
      h.governed.aside, h.governed.kind, h.governed.bound⟩
  · have hbound := (Draft.fault?_eq_none.mp hf).2.2
    have hgoverned := h.governed.appendRule h.wellFormed (Draft.Fits.ofSteps p name steps) hbound
    obtain ⟨q, pos, negs, hq, heq, _⟩ := p.appendRule_spec (Draft.ofSteps p name steps)
    rw [he] at hw ⊢
    rw [heq] at hw hgoverned ⊢
    have hregistered := h.registered.appended hq
    have henlisted := h.enlisted.appended hq
    exact ⟨hw, ⟨hregistered.1, hregistered.2, hregistered.3, hregistered.4⟩,
      ⟨henlisted.1, henlisted.2⟩, hgoverned⟩

theorem build_kept (steps : List BuildStep) : (build steps).Kept :=
  build_induction empty_kept (fun _ step h => h.perform step) steps

theorem WellFormed.count_occurrences (h : p.WellFormed) {r : Rule} (hr : r ∈ p.rules)
    {o : Occurrence} (ho : o ∈ p.occurrences) (hrule : o.rule = r.id) :
    r.occurrences.count o.id = 1 := by
  refine List.count_eq_one_of_mem ?_ ((h.mem_occurrences_rule ho hr).mpr hrule)
  refine (h.occurrences_pairwise hr).imp_of_mem fun {a b} ha _ hab he => ?_
  obtain ⟨part, i, hi⟩ := Rule.mem_occurrences.mp ha
  obtain ⟨u, hu, _⟩ := h.resolved r hr part i a hi
  have hself := hab u u hu (he ▸ hu)
  exact hself.asymm hself

/-- The books of a program: names, lists of occurrences, and what a rule says about its heads. -/
structure Coherent (p : Program) : Prop extends WellFormed p, Unannotated p where
  nodup_nameOf : (p.constraints.map p.nameOf).Nodup
  constraintNamed?_nameOf : ∀ c ∈ p.constraints, p.constraintNamed? (p.nameOf c) = some c.id
  typed : ∀ c ∈ p.constraints, c.argTypes.length = c.arity
  dependent : ∀ c ∈ p.constraints, ∀ key, c.dependency = some key → ∀ k ∈ key, k < c.arity
  ascending : ∀ c ∈ p.constraints, c.occurrences.Pairwise fun a b => a.index < b.index
  partition : (p.constraints.flatMap Constraint.occurrences).Perm (p.occurrences.map Occurrence.id)
  numbered : ∀ o ∈ p.occurrences, ∃ c, p.constraint? o.constraint = some c ∧
    0 < o.number ∧ c.occurrences[o.number - 1]? = some o.id
  once : ∀ o ∈ p.occurrences, ∃ r, p.rule? o.rule = some r ∧ r.occurrences.count o.id = 1
  aside : ∀ o ∈ p.occurrences, o.head ≠ .positive → o.passive = true ∧ o.removed = false
  kind : ∀ r ∈ p.rules, p.HasKind r
  bound : ∀ r ∈ p.rules, p.GuardsBound r

/-- Whatever is declared and whatever rules are added, also in vain, the program is coherent. -/
theorem build_coherent (steps : List BuildStep) : (build steps).Coherent := by
  obtain ⟨hw, hregistered, henlisted, hgoverned⟩ := build_kept steps
  refine ⟨hw, build_unannotated steps, hregistered.nodup_nameOf,
    fun c hc => hregistered.constraintNamed?_nameOf hc,
    hregistered.typed, hregistered.dependent, fun c hc => henlisted.ascending hw hc,
    henlisted.perm hw, ?_, ?_, hgoverned.aside, hgoverned.kind, hgoverned.bound⟩
  · intro o ho
    obtain ⟨c, hc, _⟩ := hw.declared o ho
    exact ⟨c, hc, henlisted.numbered o ho c hc⟩
  · intro o ho
    obtain ⟨r, hr, hrule, hid⟩ := hw.rule_mem ho
    exact ⟨r, hrule, hw.count_occurrences hr ho hid.symm⟩

namespace Coherent

variable {q : Program} {c : ConstraintId} {k : Constraint}

theorem mem_occurrences_iff (h : p.Coherent) (hk : p.constraint? c = some k) {id : OccurrenceId} :
    id ∈ k.occurrences ↔ ∃ o ∈ p.occurrences, o.constraint = c ∧ o.id = id := by
  have hlists := List.nodup_flatMap.mp (h.partition.nodup_iff.mpr h.nodup_ids)
  have hkm := List.mem_of_getElem? hk
  constructor
  · intro hid
    have hall := h.partition.mem_iff.mp (List.mem_flatMap.mpr ⟨k, hkm, hid⟩)
    obtain ⟨o, ho, rfl⟩ := List.mem_map.mp hall
    obtain ⟨k', hk', _, hat⟩ := h.numbered o ho
    have hsame : k' = k := by
      by_contra hne
      have : Std.Symm (Function.onFun List.Disjoint Constraint.occurrences) :=
        ⟨fun _ _ hd _ ha hb => hd hb ha⟩
      exact hlists.2.forall (List.mem_of_getElem? hk') hkm hne (List.mem_of_getElem? hat) hid
    refine ⟨o, ho, ?_, rfl⟩
    rw [← h.id_of_constraint? hk, ← h.id_of_constraint? hk', hsame]
  · rintro ⟨o, ho, rfl, rfl⟩
    obtain ⟨k', hk', _, hat⟩ := h.numbered o ho
    rw [hk] at hk'
    cases hk'
    exact List.mem_of_getElem? hat

theorem occurrences_eq (h : p.Coherent) (hk : p.constraint? c = some k) :
    k.occurrences = (p.occurrences.filter fun o => o.constraint = c).map Occurrence.id := by
  have hlisted := h.ascending k (List.mem_of_getElem? hk)
  have hfiltered : ((p.occurrences.filter fun o => o.constraint = c).map Occurrence.id).Pairwise
      fun a b => a.index < b.index :=
    List.pairwise_map.mpr (h.pairwise_id_lt.filter _)
  have hnodup : ∀ ids : List OccurrenceId, (ids.Pairwise fun a b => a.index < b.index) →
      ids.Nodup :=
    fun _ hids => hids.imp fun hlt he => Nat.ne_of_lt hlt (congrArg OccurrenceId.index he)
  refine List.Perm.eq_of_pairwise (fun _ _ _ _ hab hba => absurd hba (Nat.lt_asymm hab)) hlisted
    hfiltered
      ((List.perm_ext_iff_of_nodup (hnodup _ hlisted) (hnodup _ hfiltered)).mpr fun id => ?_)
  rw [h.mem_occurrences_iff hk]
  simp [and_assoc]

/-- However the program is annotated, the active occurrences of a constraint are those of its own
list. -/
theorem resolve?_active (h : p.Coherent) (he : q.bare = p.bare) (hk : q.constraint? c = some k) :
    (q.resolve? k.occurrences).map (List.filter Occurrence.isActive) = some (q.activeOf c) := by
  have hw : q.WellFormed := h.toWellFormed.of_bare_eq he
  obtain ⟨k', _, _, _, hk', rfl⟩ := constraint?_of_bare_eq he hk
  have hids : ∀ t : Program,
      (t.bare.occurrences.filter fun o => o.constraint = c).map Occurrence.id =
      (t.occurrences.filter fun o => o.constraint = c).map Occurrence.id := by
    intro t
    rw [bare, List.filter_map, List.map_map]
    rfl
  have hlist : k'.occurrences =
      (q.occurrences.filter fun o => o.constraint = c).map Occurrence.id := by
    rw [h.occurrences_eq hk', ← hids p, ← he, hids q]
  change (q.resolve? k'.occurrences).map _ = _
  rw [hlist, hw.resolve?_map_id fun o ho => (List.mem_filter.mp ho).1, Option.map_some,
    activeOf, active, List.filter_filter, List.filter_filter]
  simp only [Bool.and_comm]

end Coherent

end Coherent

section Addressable

variable {p : Program}

/-- No list of the program is longer than there are identifiers. -/
structure Addressable (p : Program) : Prop where
  constraints : p.constraints.length ≤ identBound
  rules : p.rules.length ≤ identBound
  occurrences : p.occurrences.length ≤ identBound

theorem mod_identBound_of_getElem? {α : Type} {xs : List α} {x : α} {i : Nat}
    (hxs : xs.length ≤ identBound) (hx : xs[i]? = some x) : i % identBound = i :=
  Nat.mod_eq_of_lt (Nat.lt_of_lt_of_le (List.getElem?_eq_some_iff.mp hx).1 hxs)

/-- Every part of an addressable program has the identifier that the number of its place names. -/
theorem Arranged.id_eq_ofNat (h : p.Arranged) (hp : p.Addressable) :
    (∀ (i : Nat) (c : Constraint), p.constraints[i]? = some c → c.id = .ofNat i) ∧
      (∀ (i : Nat) (r : Rule), p.rules[i]? = some r → r.id = .ofNat i) ∧
      ∀ (i : Nat) (o : Occurrence), p.occurrences[i]? = some o → o.id = .ofNat i := by
  refine ⟨fun i c hc => ?_, fun i r hr => ?_, fun i o ho => ?_⟩
  · rw [h.constraint_id i c hc, ConstraintId.ofNat, mod_identBound_of_getElem? hp.constraints hc]
  · rw [h.rule_id i r hr, RuleId.ofNat, mod_identBound_of_getElem? hp.rules hr]
  · rw [h.occurrence_id i o ho, OccurrenceId.ofNat, mod_identBound_of_getElem? hp.occurrences ho]

end Addressable

end Program

/-- So has every variable, as long as its rule has no more names than there are identifiers. -/
theorem Draft.var_eq_ofNat {d : Draft} {x : String} (hd : (d.var x).2.vars.size ≤ identBound) :
    (d.var x).1 = .ofNat (d.var x).1.index := by
  have hplace : (d.var x).2.vars.resolve? ⟨(d.var x).1.index⟩ = some x := d.vars.resolve?_intern x
  rw [VarId.ofNat, Program.mod_identBound_of_getElem? hd hplace]

end ConstraintRules
