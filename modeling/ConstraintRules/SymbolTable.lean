import ConstraintRules.Ident

/-! Symbol tables. Names are mapped to symbols, and symbols back to names by their
place in a list. -/

namespace ConstraintRules

structure SymbolTable where
  symbols : List (String × Symbol) := []
  names : List String := []
  inverse : ∀ name s, symbols.lookup name = some s ↔ names[s.index]? = some name := by simp

namespace SymbolTable

def empty : SymbolTable := {}

def size (t : SymbolTable) : Nat := t.names.length

def get? (t : SymbolTable) (name : String) : Option Symbol := t.symbols.lookup name

def resolve? (t : SymbolTable) (s : Symbol) : Option String := t.names[s.index]?

theorem get?_eq_some_iff {t : SymbolTable} {name : String} {s : Symbol} :
    t.get? name = some s ↔ t.resolve? s = some name :=
  t.inverse name s

theorem get?_eq_none {t : SymbolTable} {name : String} : t.get? name = none ↔ name ∉ t.names := by
  rw [List.mem_iff_getElem?, Option.eq_none_iff_forall_ne_some]
  constructor
  · rintro h ⟨i, hi⟩
    exact h ⟨i⟩ (get?_eq_some_iff.mpr hi)
  · exact fun h s hs => h ⟨s.index, get?_eq_some_iff.mp hs⟩

theorem getElem?_concat_eq_some_iff {α : Type} {xs : List α} {a x : α} {i : Nat} :
    (xs ++ [a])[i]? = some x ↔ xs[i]? = some x ∨ i = xs.length ∧ a = x := by
  rcases Nat.lt_trichotomy i xs.length with hlt | rfl | hgt
  · simp [List.getElem?_append_left hlt, Nat.ne_of_lt hlt]
  · simp
  · have hnone : (xs ++ [a])[i]? = none := by
      rw [List.getElem?_eq_none_iff, List.length_append, List.length_singleton]
      exact hgt
    simp [hnone, Nat.ne_of_gt hgt, Nat.le_of_lt hgt]

/-- Gives the next symbol to a name that has none. -/
def push (t : SymbolTable) (name : String) (h : t.get? name = none) : SymbolTable where
  symbols := (name, ⟨t.size⟩) :: t.symbols
  names := t.names ++ [name]
  inverse := by
    intro x s
    rw [List.lookup_cons, getElem?_concat_eq_some_iff, ← t.inverse]
    by_cases hx : x = name
    · subst hx
      rw [get?] at h
      rw [beq_self_eq_true, h]
      cases s
      simp [size, eq_comm]
    · rw [beq_false_of_ne hx]
      simp [Ne.symm hx]

def intern (t : SymbolTable) (name : String) : Symbol × SymbolTable :=
  match h : t.get? name with
  | some s => (s, t)
  | none => (⟨t.size⟩, t.push name h)

theorem intern_of_get?_eq_some {t : SymbolTable} {name : String} {s : Symbol}
    (h : t.get? name = some s) : t.intern name = (s, t) := by
  unfold intern
  split
  · simp_all
  · simp_all

theorem intern_of_get?_eq_none {t : SymbolTable} {name : String} (h : t.get? name = none) :
    t.intern name = (⟨t.size⟩, t.push name h) := by
  unfold intern
  split
  · simp_all
  · rfl

/-- Interns names from left to right. -/
def internAll (t : SymbolTable) : List String → List Symbol × SymbolTable
  | [] => ([], t)
  | name :: rest =>
    let (s, t) := t.intern name
    let (ss, t) := t.internAll rest
    (s :: ss, t)

end SymbolTable

end ConstraintRules
