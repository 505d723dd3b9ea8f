import ConstraintRules.Proofs.Coherence
import Mathlib.Data.Finset.Card
import Mathlib.Data.List.TakeWhile

/-! Runs of calls on a symbol table. A symbol is the number of distinct names
interned before, and is never changed. -/

namespace ConstraintRules

/-- How many distinct names stand before the first mention of a name. -/
def distinctBefore (names : List String) (x : String) : Nat :=
  (names.takeWhile fun y => y ≠ x).toFinset.card

section DistinctBefore

variable {names : List String} {x : String}

theorem takeWhile_ne_of_not_mem (hx : x ∉ names) :
    (names.takeWhile fun y => decide (y ≠ x)) = names := by
  refine List.takeWhile_eq_self_iff.mpr fun y hy => decide_eq_true fun he => ?_
  exact hx (he ▸ hy)

theorem distinctBefore_append (hx : x ∈ names) (later : List String) :
    distinctBefore (names ++ later) x = distinctBefore names x := by
  obtain ⟨before, after, rfl, hbefore⟩ := List.eq_append_cons_of_mem hx
  have hcut : ∀ rest, ((before ++ x :: rest).takeWhile fun y => decide (y ≠ x)) = before := by
    intro rest
    rw [List.takeWhile_append, takeWhile_ne_of_not_mem hbefore]
    simp
  rw [distinctBefore, distinctBefore, List.append_assoc, List.cons_append, hcut, hcut]

theorem distinctBefore_concat (hx : x ∉ names) :
    distinctBefore (names ++ [x]) x = names.toFinset.card := by
  rw [distinctBefore, List.takeWhile_append, takeWhile_ne_of_not_mem hx]
  simp

end DistinctBefore

namespace SymbolTable

variable {t u : SymbolTable} {names : List String} {name : String} {s : Symbol}

theorem get?_of_isPrefix (h : t.names <+: u.names) (hs : t.get? name = some s) :
    u.get? name = some s := by
  rw [get?_eq_some_iff] at hs ⊢
  obtain ⟨later, hu⟩ := h
  rw [resolve?, ← hu, List.getElem?_append_left (List.getElem?_eq_some_iff.mp hs).1]
  exact hs

/-- The table has the given names, each under the number of distinct names
before its first mention. -/
structure Holds (t : SymbolTable) (names : List String) : Prop where
  get?_iff : ∀ x s, t.get? x = some s ↔ x ∈ names ∧ s.index = distinctBefore names x
  size_eq : t.size = names.toFinset.card

theorem empty_holds : empty.Holds [] where
  get?_iff x s := by simp [empty, get?]
  size_eq := rfl

theorem Holds.get?_eq_none_iff (h : t.Holds names) {x : String} : t.get? x = none ↔ x ∉ names := by
  constructor
  · intro hnone hx
    rw [(h.get?_iff x ⟨distinctBefore names x⟩).mpr ⟨hx, rfl⟩] at hnone
    cases hnone
  · intro hx
    rw [Option.eq_none_iff_forall_ne_some]
    exact fun s hs => hx ((h.get?_iff x s).mp hs).1

theorem Holds.get?_eq (h : t.Holds names) {x : String} (hx : x ∈ names) :
    t.get? x = some ⟨distinctBefore names x⟩ :=
  (h.get?_iff x _).mpr ⟨hx, rfl⟩

theorem Holds.resolve?_eq (h : t.Holds names) {x : String} (hx : x ∈ names) :
    t.resolve? ⟨distinctBefore names x⟩ = some x :=
  get?_eq_some_iff.mp (h.get?_eq hx)

theorem Holds.distinctBefore_inj (h : t.Holds names) {x y : String} (hx : x ∈ names)
    (hy : y ∈ names) :
    distinctBefore names x = distinctBefore names y ↔ x = y := by
  refine ⟨fun he => ?_, fun he => he ▸ rfl⟩
  have hresolve := h.resolve?_eq hx
  rw [he, h.resolve?_eq hy] at hresolve
  exact (Option.some.inj hresolve).symm

theorem Holds.lt_size_iff (h : t.Holds names) {i : Nat} :
    i < t.size ↔ ∃ x ∈ names, distinctBefore names x = i := by
  constructor
  · intro hi
    have hname : t.resolve? ⟨i⟩ = some t.names[i] := List.getElem?_eq_getElem hi
    obtain ⟨hmem, hindex⟩ := (h.get?_iff _ _).mp (get?_eq_some_iff.mpr hname)
    exact ⟨t.names[i], hmem, hindex.symm⟩
  · rintro ⟨x, hx, rfl⟩
    exact (List.getElem?_eq_some_iff.mp (h.resolve?_eq hx)).1

theorem Holds.intern (h : t.Holds names) (name : String) :
    (t.intern name).2.Holds (names ++ [name]) := by
  have hgrown := t.names_intern_isPrefix name
  cases hget : t.get? name with
  | some s =>
    have hname := ((h.get?_iff name s).mp hget).1
    rw [intern_of_get?_eq_some hget]
    refine ⟨fun x s => ?_, ?_⟩
    · have hmem : x ∈ names ++ [name] ↔ x ∈ names := by
        rw [List.mem_append, List.mem_singleton, or_iff_left_iff_imp]
        exact fun he => he ▸ hname
      rw [h.get?_iff, hmem]
      exact and_congr_right fun hx => by rw [distinctBefore_append hx]
    · rw [h.size_eq, List.toFinset_append]
      simp [hname]
  | none =>
    have hname := h.get?_eq_none_iff.mp hget
    have hfst : (t.intern name).1 = ⟨names.toFinset.card⟩ := by
      rw [intern_of_get?_eq_none hget, ← h.size_eq]
    refine ⟨fun x s => ?_, ?_⟩
    · by_cases hx : x = name
      · subst hx
        rw [get?_intern, hfst, distinctBefore_concat hname]
        cases s
        simp [eq_comm]
      · have hold : (t.intern name).2.get? x = some s ↔ t.get? x = some s := by
          refine ⟨fun hs => ?_, get?_of_isPrefix hgrown⟩
          cases hx' : t.get? x with
          | some s' => exact (get?_of_isPrefix hgrown hx').symm.trans hs
          | none =>
            -- a name that was not in the table and is not the new one is still not there
            have hmem := List.mem_of_getElem? (get?_eq_some_iff.mp hs)
            rw [intern_of_get?_eq_none hget, push, List.mem_append, List.mem_singleton] at hmem
            exact absurd hmem (not_or_intro (get?_eq_none.mp hx') hx)
        rw [hold, h.get?_iff, List.mem_append, List.mem_singleton, or_iff_left hx]
        exact and_congr_right fun hmem => by rw [distinctBefore_append hmem]
    · have hsize : (t.intern name).2.size = t.size + 1 := by
        simp [intern_of_get?_eq_none hget, push, size]
      rw [hsize, h.size_eq, List.toFinset_append]
      simp [hname]

inductive Call where
  | intern (name : String)
  | get (name : String)

def Call.subject : Call → String
  | intern name | get name => name

def perform (t : SymbolTable) : Call → Option Symbol × SymbolTable
  | .intern name => (some (t.intern name).1, (t.intern name).2)
  | .get name => (t.get? name, t)

def run (t : SymbolTable) (calls : List Call) : SymbolTable :=
  calls.foldl (fun t c => (t.perform c).2) t

def interned (calls : List Call) : List String :=
  calls.filterMap fun
    | .intern name => some name
    | .get _ => none

/-- Some call about the name, in a run from the empty table, was answered by the symbol. -/
def Answered (calls : List Call) (name : String) (s : Symbol) : Prop :=
  ∃ before c after, calls = before ++ c :: after ∧ c.subject = name ∧
    ((empty.run before).perform c).1 = some s

theorem run_append (t : SymbolTable) (calls later : List Call) :
    t.run (calls ++ later) = (t.run calls).run later :=
  List.foldl_append

theorem perform_isPrefix (t : SymbolTable) (c : Call) : t.names <+: (t.perform c).2.names := by
  cases c with
  | intern name => exact t.names_intern_isPrefix name
  | get name => exact List.prefix_rfl

theorem run_isPrefix (t : SymbolTable) (calls : List Call) : t.names <+: (t.run calls).names := by
  induction calls generalizing t with
  | nil => exact List.prefix_rfl
  | cons c calls ih => exact (t.perform_isPrefix c).trans (ih _)

theorem Holds.perform (h : t.Holds names) (c : Call) :
    (t.perform c).2.Holds (names ++ interned [c]) := by
  cases c with
  | intern name => exact h.intern name
  | get name =>
    rw [show interned [.get name] = [] from rfl, List.append_nil]
    exact h

theorem Holds.run (h : t.Holds names) (calls : List Call) :
    (t.run calls).Holds (names ++ interned calls) := by
  induction calls generalizing t names with
  | nil =>
    rw [show interned [] = [] from rfl, List.append_nil]
    exact h
  | cons c calls ih =>
    have hrest := ih (h.perform c)
    rwa [List.append_assoc, interned, interned, ← List.filterMap_append, List.singleton_append]
      at hrest

theorem run_empty_holds (calls : List Call) : (empty.run calls).Holds (interned calls) := by
  simpa using empty_holds.run calls

theorem get?_of_perform {c : Call} (h : (t.perform c).1 = some s) :
    (t.perform c).2.get? c.subject = some s := by
  cases c with
  | intern name =>
    cases h
    exact t.get?_intern name
  | get name => exact h

theorem Answered.get? {calls : List Call} (h : Answered calls name s) (later : List Call) :
    ((empty.run calls).run later).get? name = some s := by
  obtain ⟨before, c, after, rfl, rfl, hs⟩ := h
  rw [← run_append, List.append_assoc, run_append]
  exact get?_of_isPrefix (run_isPrefix _ (after ++ later)) (get?_of_perform hs)

/-- Whatever is interned and asked for, a name that was interned keeps its symbol, and no other
name has it. Symbols are numbered by the first mention of their names. -/
theorem run_empty_bijective (calls : List Call) :
    let t := empty.run calls
    (∀ name, (∃ s, t.get? name = some s) ↔ name ∈ interned calls) ∧
    (∀ name s, Answered calls name s → ∀ later,
      (t.run later).get? name = some s ∧ (t.run later).resolve? s = some name) ∧
    (∀ name name' s s', Answered calls name s → Answered calls name' s' → (s = s' ↔ name = name')) ∧
    (∀ name s, t.get? name = some s → s.index = distinctBefore (interned calls) name) ∧
    (∀ i, i < t.size ↔ ∃ name ∈ interned calls, t.get? name = some ⟨i⟩) ∧
    t.size = (interned calls).toFinset.card ∧
    (t.size ≤ identBound → ∀ name s, t.get? name = some s → s.index < identBound) := by
  intro t
  have ht : t.Holds (interned calls) := run_empty_holds calls
  refine ⟨fun name => ?_, fun name s hs later => ?_, fun name name' s s' hs hs' => ?_,
    fun name s hs => ?_, fun i => ?_, ht.size_eq, fun hbound name s hs => ?_⟩
  · constructor
    · rintro ⟨s, hs⟩
      exact ((ht.get?_iff name s).mp hs).1
    · intro hname
      exact ⟨_, ht.get?_eq hname⟩
  · exact ⟨hs.get? later, get?_eq_some_iff.mp (hs.get? later)⟩
  · have hget : t.get? name = some s := hs.get? []
    have hget' : t.get? name' = some s' := hs'.get? []
    constructor
    · rintro rfl
      exact Option.some.inj ((get?_eq_some_iff.mp hget).symm.trans (get?_eq_some_iff.mp hget'))
    · rintro rfl
      exact Option.some.inj (hget.symm.trans hget')
  · exact ((ht.get?_iff name s).mp hs).2
  · rw [ht.lt_size_iff]
    refine exists_congr fun name => and_congr_right fun hname => ?_
    rw [ht.get?_eq hname, Option.some.injEq, Symbol.mk.injEq]
  · exact Nat.lt_of_lt_of_le (List.getElem?_eq_some_iff.mp (get?_eq_some_iff.mp hs)).1 hbound

end SymbolTable

end ConstraintRules
