import ConstraintRules.Proofs.Building
import ConstraintRules.Proofs.Interning
import Mathlib.Data.List.ModifyLast

/-! What the steps of a rule say, read off without taking them one by one. -/

namespace ConstraintRules

namespace RuleStep

/-- The constraint that a step applies, and the arguments. -/
def application? : RuleStep → Option (ConstraintId × List String)
  | kept c args | removed c args | negated c args | call c args => some (c, args)
  | passive | negatedEqual _ _ | guardEqual _ _ | guardTest _ | builtIn _ | triggering
  | pessimistic | free => none

/-- The variables that a step mentions, in order. -/
def names : RuleStep → List String
  | kept _ args | removed _ args | negated _ args | call _ args => args
  | negatedEqual left right | guardEqual left right => [left, right]
  | guardTest vars => vars
  | passive | builtIn _ | triggering | pessimistic | free => []

def isPositive : RuleStep → Bool
  | kept _ _ | removed _ _ => true
  | _ => false

/-- What a step applies exists and takes that many arguments. -/
def Fits (p : Program) (s : RuleStep) : Prop :=
  ∀ a ∈ s.application?, ∃ k, p.constraint? a.1 = some k ∧ k.arity = a.2.length

theorem fits_iff {p : Program} {s : RuleStep} :
    s.Fits p ↔ ∀ a ∈ s.application?, p.misapplied? a.1 a.2.length = none :=
  forall₂_congr fun _ _ => Program.misapplied?_eq_none.symm

instance (p : Program) (s : RuleStep) : Decidable (s.Fits p) := decidable_of_iff _ fits_iff.symm

/-- The steps whose applications fit. -/
def accepted (p : Program) (steps : List RuleStep) : List RuleStep := steps.filter fun s => s.Fits p

/-- The variables that accepted steps mention, in order. -/
def mentions (p : Program) (steps : List RuleStep) : List String := (accepted p steps).flatMap names

theorem accepted_cons_of_fits {p : Program} {s : RuleStep} (hs : s.Fits p) (rest : List RuleStep) :
    accepted p (s :: rest) = s :: accepted p rest :=
  List.filter_cons_of_pos (decide_eq_true hs)

theorem accepted_cons_of_not_fits {p : Program} {s : RuleStep} (hs : ¬s.Fits p)
    (rest : List RuleStep) :
    accepted p (s :: rest) = accepted p rest :=
  List.filter_cons_of_neg (by simpa using hs)

/-- The condition of a step, with its variables numbered. -/
def conjunct? (ν : String → VarId) : RuleStep → Option GuardConjunct
  | guardEqual left right | negatedEqual left right => some (.equal (ν left) (ν right))
  | guardTest vars => some (.test (vars.map ν))
  | _ => none

/-- The goal of a step, with its variables numbered. -/
def goal? (ν : String → VarId) : RuleStep → Option Goal
  | call c args => some (.call c (args.map ν))
  | builtIn b => some (.builtIn b)
  | triggering => some .triggering
  | pessimistic => some .pessimistic
  | free => some .free
  | _ => none

/-- Whether a passive mark comes before the next positive occurrence. -/
@[simp]
def isMarked : List RuleStep → Bool
  | [] => false
  | passive :: _ => true
  | kept _ _ :: _ | removed _ _ :: _ => false
  | _ :: rest => isMarked rest

/-- The equalities that come before the next negative head. -/
@[simp]
def ownEqualities : List RuleStep → List RuleStep
  | [] | negated _ _ :: _ => []
  | negatedEqual left right :: rest => negatedEqual left right :: ownEqualities rest
  | _ :: rest => ownEqualities rest

/-- The conditions that are meant for the rule. -/
@[simp]
def ruleConditions : List RuleStep → List RuleStep
  | [] => []
  | guardEqual left right :: rest => guardEqual left right :: ruleConditions rest
  | guardTest vars :: rest => guardTest vars :: ruleConditions rest
  | _ :: rest => ruleConditions rest

/-- The conditions of the rule: also the equalities for a negative head,
as long as there is none. -/
@[simp]
def guardSteps : List RuleStep → List RuleStep
  | [] => []
  | negated _ _ :: rest => ruleConditions rest
  | negatedEqual left right :: rest => negatedEqual left right :: guardSteps rest
  | guardEqual left right :: rest => guardEqual left right :: guardSteps rest
  | guardTest vars :: rest => guardTest vars :: guardSteps rest
  | _ :: rest => guardSteps rest

@[simp]
def positiveHead (ν : String → VarId) : List RuleStep → List DraftOccurrence
  | [] => []
  | kept c args :: rest =>
    { constraint := c, args := args.map ν, passive := isMarked rest } :: positiveHead ν rest
  | removed c args :: rest =>
    { constraint := c, args := args.map ν, removed := true, passive := isMarked rest } ::
      positiveHead ν rest
  | _ :: rest => positiveHead ν rest

@[simp]
def negativeHeads (ν : String → VarId) : List RuleStep → List DraftNegative
  | [] => []
  | negated c args :: rest =>
    { occurrences := [{ constraint := c, args := args.map ν, passive := true }]
      guard := (ownEqualities rest).filterMap (conjunct? ν) } :: negativeHeads ν rest
  | _ :: rest => negativeHeads ν rest

end RuleStep

open RuleStep

namespace Draft

/-- What the steps of a rule say, with variables numbered by `ν`. -/
def written (name : String) (ν : String → VarId) (steps : List RuleStep) : Draft where
  name := name
  positive := positiveHead ν steps
  negatives := negativeHeads ν steps
  guard := (guardSteps steps).filterMap (conjunct? ν)
  body := steps.filterMap (goal? ν)

/-- The draft with what further steps say. A mark and an equality may belong
to what is there already. -/
def extend (ν : String → VarId) (d : Draft) (steps : List RuleStep) : Draft :=
  { d with
    positive :=
      (d.positive.modifyLast fun o => { o with passive := o.passive || isMarked steps }) ++
        positiveHead ν steps
    negatives := (d.negatives.modifyLast fun n =>
      { n with guard := n.guard ++ (ownEqualities steps).filterMap (conjunct? ν) }) ++
        negativeHeads ν steps
    guard := d.guard ++
      (if d.negatives = [] then guardSteps steps else ruleConditions steps).filterMap (conjunct? ν)
    body := d.body ++ steps.filterMap (goal? ν) }

theorem extend_start (ν : String → VarId) (name : String) (steps : List RuleStep) :
    ({ name } : Draft).extend ν steps = written name ν steps := by
  simp [extend, written, List.modifyLast, List.modifyLast.go]

end Draft

theorem modifyLast_singleton {α : Type} (f : α → α) (x : α) : [x].modifyLast f = [f x] := rfl

theorem modifyLast_id {α : Type} (xs : List α) : xs.modifyLast (fun x => x) = xs := by
  rcases List.eq_nil_or_concat xs with rfl | ⟨ys, y, rfl⟩
  · rfl
  · rw [List.concat_eq_append, List.modifyLast_concat]

theorem modifyLast_modifyLast {α : Type} (f g : α → α) (xs : List α) :
    (xs.modifyLast f).modifyLast g = xs.modifyLast fun x => g (f x) := by
  rcases List.eq_nil_or_concat xs with rfl | ⟨ys, y, rfl⟩
  · rfl
  · simp only [List.concat_eq_append, List.modifyLast_concat]

theorem modifyLast_eq_nil {α : Type} {f : α → α} {xs : List α} :
    xs.modifyLast f = [] ↔ xs = [] := by
  rcases List.eq_nil_or_concat xs with rfl | ⟨ys, y, rfl⟩
  · simp [List.modifyLast, List.modifyLast.go]
  · simp [List.modifyLast_concat]

/-- A variable gets the number of distinct names before it. -/
def numbering (names : List String) (x : String) : VarId := ⟨distinctBefore names x⟩

theorem SymbolTable.Holds.numbering_inj {t : SymbolTable} {names : List String} (h : t.Holds names)
    {x y : String} (hx : x ∈ names) (hy : y ∈ names) :
    numbering names x = numbering names y ↔ x = y :=
  VarId.mk.injEq _ _ ▸ h.distinctBefore_inj hx hy

theorem SymbolTable.Holds.internAll {t : SymbolTable} {seen : List String} (h : t.Holds seen)
    (names later : List String) :
    (t.internAll names).2.Holds (seen ++ names) ∧
      (t.internAll names).1.map (fun s => VarId.mk s.index) =
        names.map (numbering (seen ++ names ++ later)) := by
  induction names generalizing t seen with
  | nil => simpa [SymbolTable.internAll] using h
  | cons x rest ih =>
    have hx := h.intern x
    obtain ⟨hrest, hnumbers⟩ := ih hx
    have hindex := ((hx.get?_iff x _).mp (t.get?_intern x)).2
    have hassoc : seen ++ [x] ++ rest = seen ++ x :: rest := List.append_cons seen x rest ▸ rfl
    rw [hassoc] at hrest hnumbers
    refine ⟨hrest, ?_⟩
    have hfirst : distinctBefore (seen ++ x :: rest ++ later) x =
        distinctBefore (seen ++ [x]) x := by
      have hsplit : seen ++ x :: rest ++ later = (seen ++ [x]) ++ (rest ++ later) := by simp
      rw [hsplit, distinctBefore_append (by simp)]
    simp only [SymbolTable.internAll, List.map_cons, hnumbers, numbering, hfirst, hindex]

namespace Draft

variable {p : Program} {d : Draft} {s : RuleStep} {seen : List String}

theorem varList_eq (h : d.vars.Holds seen) (names later : List String) :
    d.varList names =
      (names.map (numbering (seen ++ names ++ later)),
        { d with vars := (d.vars.internAll names).2 }) :=
  Prod.ext (h.internAll names later).2 rfl

theorem equality_eq (h : d.vars.Holds seen) (left right : String) (later : List String) :
    d.equality left right = (.equal (numbering (seen ++ [left, right] ++ later) left)
      (numbering (seen ++ [left, right] ++ later) right),
        { d with vars := (d.vars.internAll [left, right]).2 }) := by
  have hboth := (h.internAll [left, right] later).2
  simp only [SymbolTable.internAll, List.map_cons, List.map_nil, List.cons.injEq, and_true] at hboth
  rw [← hboth.1, ← hboth.2]
  rfl

theorem apply_of_fits {c : ConstraintId} {args : List String}
    (hfits : p.misapplied? c args.length = none) (h : d.vars.Holds seen) (later : List String)
    (next : List VarId → Draft → Draft) :
    d.apply p c args next =
      next (args.map (numbering (seen ++ args ++ later)))
        { d with vars := (d.vars.internAll args).2 } := by
  simp only [apply, hfits, varList_eq h args later]

theorem markPassive_eq (d : Draft) : d.markPassive =
    { d with
      positive := d.positive.modifyLast fun o => { o with passive := true }
      misuse :=
        d.misuse <|> if d.positive = [] then some (.danglingPassive d.name) else none } := by
  rcases List.eq_nil_or_concat d.positive with hnil | ⟨os, o, ho⟩
  · rw [markPassive, hnil]
    cases d
    cases hnil
    rfl
  · rw [List.concat_eq_append] at ho
    simp [markPassive, ho, List.modifyLast_concat]

theorem addNegatedGuard_eq (d : Draft) (g : GuardConjunct) : d.addNegatedGuard g =
    { d with
      negatives := d.negatives.modifyLast fun n => { n with guard := n.guard ++ [g] }
      guard := d.guard ++ if d.negatives = [] then [g] else [] } := by
  rcases List.eq_nil_or_concat d.negatives with hnil | ⟨ns, n, hn⟩
  · cases d
    cases hnil
    rfl
  · rw [List.concat_eq_append] at hn
    simp [addNegatedGuard, hn, List.modifyLast_concat]

theorem extend_take (h : d.vars.Holds seen) (later : List String) (hs : s.Fits p)
    (rest : List RuleStep) :
    (d.take p s).extend (numbering (seen ++ s.names ++ later)) rest =
      { d.extend (numbering (seen ++ s.names ++ later)) (s :: rest) with
        vars := (d.vars.internAll s.names).2
        misuse := (d.take p s).misuse } := by
  cases s with
  | kept c args | removed c args | negated c args | call c args =>
    have hc := fits_iff.mp hs (c, args) rfl
    by_cases hn : d.negatives = []
    all_goals
      simp [take, names, apply_of_fits hc h later, addGoal, extend, hn, goal?, List.filterMap_cons,
        List.modifyLast_concat, modifyLast_singleton, modifyLast_id]
  | passive =>
    by_cases hn : d.negatives = []
    all_goals
      simp [take, names, markPassive_eq, extend, hn, goal?, List.filterMap_cons,
        modifyLast_modifyLast, SymbolTable.internAll]
  | negatedEqual left right =>
    by_cases hn : d.negatives = []
    all_goals
      simp [take, names, equality_eq h left right later, addNegatedGuard_eq, extend, hn,
        conjunct?, goal?, List.filterMap_cons, modifyLast_modifyLast, modifyLast_eq_nil]
  | guardEqual left right =>
    by_cases hn : d.negatives = []
    all_goals simp [take, names, equality_eq h left right later, extend, hn, conjunct?, goal?,
      List.filterMap_cons]
  | guardTest vars =>
    by_cases hn : d.negatives = []
    all_goals simp [take, names, varList_eq h vars later, extend, hn, conjunct?, goal?,
      List.filterMap_cons]
  | builtIn _ | triggering | pessimistic | free =>
    by_cases hn : d.negatives = []
    all_goals simp [take, names, addGoal, extend, hn, goal?, SymbolTable.internAll]

theorem extend_nil (ν : String → VarId) (d : Draft) : d.extend ν [] = d := by
  simp [extend, modifyLast_id]

theorem take_of_not_fits (hs : ¬s.Fits p) : ∃ e, d.take p s = d.fail e := by
  obtain ⟨⟨c, args⟩, ha, hmis⟩ : ∃ a ∈ s.application?, p.misapplied? a.1 a.2.length ≠ none := by
    simpa [fits_iff] using hs
  obtain ⟨e, he⟩ := Option.ne_none_iff_exists'.mp hmis
  refine ⟨e, ?_⟩
  cases s with
  | kept | removed | negated | call =>
    cases ha
    simp only [take, apply, he]
  | _ => cases ha

/-- Taking steps adds what the accepted ones say, with every variable
numbered by the names before it. -/
theorem foldl_take_eq (h : d.vars.Holds seen) (steps : List RuleStep) :
    (steps.foldl (take p) d).vars.Holds (seen ++ mentions p steps) ∧
      steps.foldl (take p) d =
        { d.extend (numbering (seen ++ mentions p steps)) (accepted p steps) with
          vars := (steps.foldl (take p) d).vars
          misuse := (steps.foldl (take p) d).misuse } := by
  induction steps generalizing d seen with
  | nil =>
    rw [show mentions p [] = [] from rfl, show accepted p [] = [] from rfl,
      List.append_nil, extend_nil]
    exact ⟨h, rfl⟩
  | cons s rest ih =>
    rw [List.foldl_cons]
    by_cases hs : s.Fits p
    · have hnames : mentions p (s :: rest) = s.names ++ mentions p rest := by
        rw [mentions, accepted_cons_of_fits hs, List.flatMap_cons, mentions]
      have hstep := fun later => extend_take h later hs (accepted p rest)
      have hvars : (d.take p s).vars = (d.vars.internAll s.names).2 := congrArg vars (hstep [])
      have hseen : (d.take p s).vars.Holds (seen ++ s.names) := hvars ▸ (h.internAll s.names []).1
      obtain ⟨hholds, heq⟩ := ih hseen
      rw [hstep] at heq
      rw [hnames, accepted_cons_of_fits hs, ← List.append_assoc]
      exact ⟨hholds, heq⟩
    · obtain ⟨e, he⟩ := take_of_not_fits (d := d) hs
      have hnames : mentions p (s :: rest) = mentions p rest := by
        rw [mentions, accepted_cons_of_not_fits hs, mentions]
      rw [he, hnames, accepted_cons_of_not_fits hs]
      exact ih (d := d.fail e) h

theorem ofSteps_holds (p : Program) (name : String) (steps : List RuleStep) :
    (ofSteps p name steps).vars.Holds (mentions p steps) := by
  have hholds := (foldl_take_eq (p := p) (d := { name }) SymbolTable.empty_holds steps).1
  rwa [List.nil_append] at hholds

/-- A rule is drafted as its accepted steps say. -/
theorem ofSteps_eq (p : Program) (name : String) (steps : List RuleStep) :
    ofSteps p name steps =
      { written name (numbering (mentions p steps)) (accepted p steps) with
        vars := (ofSteps p name steps).vars
        misuse := (ofSteps p name steps).misuse } := by
  have heq := (foldl_take_eq (p := p) (d := { name }) SymbolTable.empty_holds steps).2
  rwa [List.nil_append, extend_start] at heq

end Draft

end ConstraintRules
