import ConstraintRules.Proofs.RuleFaults

/-! The names of variables do not matter: a rule with its variables renamed apart
is added or refused as before. -/

namespace ConstraintRules

def RuleStep.rename (f : String → String) : RuleStep → RuleStep
  | kept c args => kept c (args.map f)
  | removed c args => removed c (args.map f)
  | passive => passive
  | negated c args => negated c (args.map f)
  | negatedEqual left right => negatedEqual (f left) (f right)
  | guardEqual left right => guardEqual (f left) (f right)
  | guardTest vars => guardTest (vars.map f)
  | call c args => call c (args.map f)
  | builtIn b => builtIn b
  | triggering => triggering
  | pessimistic => pessimistic
  | free => free

def ModelError.rename (f : String → String) : ModelError → ModelError
  | unboundGuardVariable rule var => unboundGuardVariable rule (f var)
  | e => e

namespace SymbolTable

variable {f : String → String}

theorem lookup_map_eq_some_iff (hf : Function.Injective f) {entries : List (String × Symbol)}
    {x : String} {s : Symbol} : (entries.map fun e => (f e.1, e.2)).lookup x = some s ↔
      ∃ y, f y = x ∧ entries.lookup y = some s := by
  induction entries with
  | nil => simp
  | cons e rest ih =>
    obtain ⟨name, s'⟩ := e
    rw [List.map_cons, List.lookup_cons]
    by_cases hx : x = f name
    · rw [hx, beq_self_eq_true]
      simp only [hf.eq_iff, exists_eq_left]
      rw [List.lookup_cons_self]
    · rw [beq_false_of_ne hx, ih]
      refine exists_congr fun y => and_congr_right fun hy => ?_
      have hne : y ≠ name := fun he => hx (he ▸ hy.symm)
      rw [List.lookup_cons, beq_false_of_ne hne]

def rename (hf : Function.Injective f) (t : SymbolTable) : SymbolTable where
  symbols := t.symbols.map fun e => (f e.1, e.2)
  names := t.names.map f
  inverse := by
    intro x s
    rw [lookup_map_eq_some_iff hf, List.getElem?_map, Option.map_eq_some_iff]
    refine exists_congr fun y => ?_
    rw [t.inverse, and_comm]

theorem resolve?_rename (hf : Function.Injective f) (t : SymbolTable) (s : Symbol) :
    (t.rename hf).resolve? s = (t.resolve? s).map f :=
  List.getElem?_map ..

theorem get?_rename (hf : Function.Injective f) (t : SymbolTable) (name : String) :
    (t.rename hf).get? (f name) = t.get? name := by
  apply Option.ext
  intro s
  rw [get?, rename, lookup_map_eq_some_iff hf]
  simp only [hf.eq_iff, exists_eq_left]
  rfl

theorem intern_rename (hf : Function.Injective f) (t : SymbolTable) (name : String) :
    (t.rename hf).intern (f name) = ((t.intern name).1, (t.intern name).2.rename hf) := by
  have hget := get?_rename hf t name
  cases h : t.get? name with
  | some s =>
    rw [intern_of_get?_eq_some h, intern_of_get?_eq_some (hget.trans h)]
  | none =>
    rw [intern_of_get?_eq_none h, intern_of_get?_eq_none (hget.trans h)]
    simp [rename, push, size]

theorem internAll_rename (hf : Function.Injective f) (t : SymbolTable) (names : List String) :
    (t.rename hf).internAll (names.map f) =
      ((t.internAll names).1, (t.internAll names).2.rename hf) := by
  induction names generalizing t with
  | nil => rfl
  | cons name rest ih => simp only [List.map_cons, internAll, intern_rename hf, ih]

end SymbolTable

open RuleStep

namespace Draft

variable {p : Program} {f : String → String}

def rename (hf : Function.Injective f) (d : Draft) : Draft := { d with vars := d.vars.rename hf }

theorem var_rename (hf : Function.Injective f) (d : Draft) (x : String) :
    (d.rename hf).var (f x) = ((d.var x).1, (d.var x).2.rename hf) := by
  simp only [var, rename, SymbolTable.intern_rename hf]

theorem varList_rename (hf : Function.Injective f) (d : Draft) (names : List String) :
    (d.rename hf).varList (names.map f) = ((d.varList names).1, (d.varList names).2.rename hf) := by
  simp only [varList, rename, SymbolTable.internAll_rename hf]

theorem equality_rename (hf : Function.Injective f) (d : Draft) (left right : String) :
    (d.rename hf).equality (f left) (f right) =
      ((d.equality left right).1, (d.equality left right).2.rename hf) := by
  simp only [equality, var_rename hf]

theorem apply_rename (hf : Function.Injective f) (d : Draft) (c : ConstraintId) (args : List String)
    {next : List VarId → Draft → Draft}
    (hnext : ∀ vs d, next vs (d.rename hf) = (next vs d).rename hf) :
    (d.rename hf).apply p c (args.map f) next = (d.apply p c args next).rename hf := by
  simp only [apply, List.length_map, varList_rename hf]
  cases p.misapplied? c args.length with
  | some e => rfl
  | none => exact hnext _ _

theorem markPassive_rename (hf : Function.Injective f) (d : Draft) :
    (d.rename hf).markPassive = d.markPassive.rename hf := by
  rw [markPassive_eq, markPassive_eq]
  rfl

theorem addNegatedGuard_rename (hf : Function.Injective f) (d : Draft) (g : GuardConjunct) :
    (d.rename hf).addNegatedGuard g = (d.addNegatedGuard g).rename hf := by
  rw [addNegatedGuard_eq, addNegatedGuard_eq]
  rfl

theorem take_rename (hf : Function.Injective f) (d : Draft) (s : RuleStep) :
    (d.rename hf).take p (s.rename f) = (d.take p s).rename hf := by
  cases s with
  | kept c args | removed c args | negated c args | call c args =>
    simp only [RuleStep.rename, take]
    refine apply_rename hf d c args fun _ _ => ?_
    rfl
  | passive => exact markPassive_rename hf d
  | negatedEqual left right =>
    simp only [RuleStep.rename, take, equality_rename hf]
    exact addNegatedGuard_rename ..
  | guardEqual left right =>
    simp only [RuleStep.rename, take, equality_rename hf]
    rfl
  | guardTest vars =>
    simp only [RuleStep.rename, take, varList_rename hf]
    rfl
  | builtIn _ | triggering | pessimistic | free => rfl

theorem foldl_take_rename (hf : Function.Injective f) (d : Draft) (steps : List RuleStep) :
    (steps.map (RuleStep.rename f)).foldl (take p) (d.rename hf) =
      (steps.foldl (take p) d).rename hf := by
  induction steps generalizing d with
  | nil => rfl
  | cons s rest ih => rw [List.map_cons, List.foldl_cons, List.foldl_cons, take_rename hf, ih]

theorem ofSteps_rename (hf : Function.Injective f) (name : String) (steps : List RuleStep) :
    ofSteps p name (steps.map (RuleStep.rename f)) = (ofSteps p name steps).rename hf :=
  foldl_take_rename hf { name } steps

theorem fault?_rename (hf : Function.Injective f) (p : Program) (name : String)
    (steps : List RuleStep) :
    ((ofSteps p name steps).rename hf).fault? =
      (ofSteps p name steps).fault?.map (ModelError.rename f) := by
  obtain ⟨hnone, hsome⟩ := misuse_ofSteps p name steps
  have hmisuse : ((ofSteps p name steps).rename hf).misuse = (ofSteps p name steps).misuse := rfl
  have hname : ((ofSteps p name steps).rename hf).name = (ofSteps p name steps).name := rfl
  have hpositive : ((ofSteps p name steps).rename hf).positive = (ofSteps p name steps).positive :=
    rfl
  have hunbound : ((ofSteps p name steps).rename hf).unbound? = (ofSteps p name steps).unbound? :=
    rfl
  simp only [fault?, hmisuse, hname, hpositive, hunbound]
  cases hm : (ofSteps p name steps).misuse with
  | some e =>
    -- a misuse names no variable
    obtain ⟨_, _, _, _, _, hmisuse⟩ := (hsome e).mp hm
    cases hmisuse <;> rfl
  | none =>
    cases (ofSteps p name steps).positive.isEmpty with
    | true => rfl
    | false =>
      rcases unbound?_ofSteps (hnone.mp hm) with ⟨hv, _⟩ | ⟨v, x, hv, hx, _⟩
      · simp [hv]
      · have hrenamed : ((ofSteps p name steps).rename hf).vars.resolve? ⟨v.index⟩ =
            some (f x) := by
          rw [rename, SymbolTable.resolve?_rename, hx, Option.map_some]
        simp [hv, varName, hx, hrenamed, ModelError.rename]

end Draft

namespace Program

/-- A rule with its variables renamed apart is added or refused like the rule, and its variables
are numbered by their first mention in an accepted step. -/
theorem perform_rule_rename (p : Program) (name : String) (steps : List RuleStep)
    (f : String → String) (hf : Function.Injective f) :
    p.perform (.rule name (steps.map (RuleStep.rename f))) =
        ((p.perform (.rule name steps)).1.mapError (ModelError.rename f),
          (p.perform (.rule name steps)).2) ∧
      (∃ vars misuse, Draft.ofSteps p name steps =
        { Draft.written name (numbering (mentions p steps)) (accepted p steps) with
          vars, misuse }) ∧
      (∀ x ∈ mentions p steps, ∀ y ∈ mentions p steps,
        numbering (mentions p steps) x = numbering (mentions p steps) y ↔ x = y) ∧
      (∀ i, i < (mentions p steps).toFinset.card ↔
        ∃ x ∈ mentions p steps, numbering (mentions p steps) x = ⟨i⟩) ∧
      (∀ id q, p.perform (.rule name steps) = (.ok (.rule id), q) → ∃ rule pos negs,
        p.GainsRule q (Draft.written name (numbering (mentions p steps)) steps) rule pos negs) := by
  have hvars := Draft.ofSteps_holds p name steps
  refine ⟨?_, ⟨_, _, Draft.ofSteps_eq p name steps⟩, fun x hx y hy => hvars.numbering_inj hx hy,
    fun i => ?_,
    fun id q hq => ?_⟩
  · have hfault := Draft.fault?_rename hf p name steps
    rw [← Draft.ofSteps_rename hf] at hfault
    cases he : (Draft.ofSteps p name steps).fault? with
    | some e =>
      rw [he] at hfault
      rw [perform_rule_of_fault hfault, perform_rule_of_fault he]
      rfl
    | none =>
      rw [he] at hfault
      rw [perform_rule_of_no_fault hfault, perform_rule_of_no_fault he, Draft.ofSteps_rename hf]
      rfl
  · rw [← hvars.size_eq, hvars.lt_size_iff]
    simp only [numbering, VarId.mk.injEq]
  · cases he : (Draft.ofSteps p name steps).fault? with
    | some e =>
      rw [perform_rule_of_fault he] at hq
      cases hq
    | none =>
      rw [perform_rule_of_no_fault he] at hq
      cases hq
      have hused := (Draft.misuse_ofSteps p name steps).1.mp (Draft.fault?_eq_none.mp he).1
      rw [hused.mentions_eq]
      exact appendRule_ofSteps_gains he

def strayGuard : List RuleStep := [.kept ⟨0⟩ ["X", "Y"], .kept ⟨0⟩ ["Y", "X"], .guardEqual "X" "Z"]

theorem strayGuard_renamed : Function.Injective (fun x => "V" ++ x) ∧
    ((build [.ensure "leq" 2]).perform
      (.rule "stray" (strayGuard.map (RuleStep.rename fun x => "V" ++ x)))).1 =
      .error (.unboundGuardVariable "stray" "VZ") := by
  have hf : Function.Injective fun x => "V" ++ x := fun _ _ => (String.append_right_inj "V").mp
  refine ⟨hf, ?_⟩
  rw [(perform_rule_rename _ "stray" strayGuard _ hf).1]
  rfl

end Program

end ConstraintRules
