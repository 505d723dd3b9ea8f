/-! Identifiers of the parts of a program, which are positions in its lists. A
number from outside names the identifier of its 32-bit residue. -/

namespace ConstraintRules

/-- The number of distinct identifiers that can be written down. -/
def identBound : Nat := UInt32.size

structure ConstraintId where
  index : Nat
deriving DecidableEq

structure RuleId where
  index : Nat
deriving DecidableEq

structure OccurrenceId where
  index : Nat
deriving DecidableEq

/-- A variable, numbered within its rule. -/
structure VarId where
  index : Nat
deriving DecidableEq

structure Symbol where
  index : Nat
deriving DecidableEq

structure CategoryId where
  index : Nat
deriving DecidableEq

structure LabelId where
  index : Nat
deriving DecidableEq

namespace ConstraintId

def ofNat (n : Nat) : ConstraintId := ⟨n % identBound⟩

def text (c : ConstraintId) : String := "c" ++ toString c.index

end ConstraintId

namespace RuleId

def ofNat (n : Nat) : RuleId := ⟨n % identBound⟩

def text (r : RuleId) : String := "r" ++ toString r.index

end RuleId

namespace OccurrenceId

def ofNat (n : Nat) : OccurrenceId := ⟨n % identBound⟩

def text (o : OccurrenceId) : String := "o" ++ toString o.index

end OccurrenceId

namespace VarId

def ofNat (n : Nat) : VarId := ⟨n % identBound⟩

def text (v : VarId) : String := "V" ++ toString v.index

end VarId

def Symbol.text (s : Symbol) : String := "#" ++ toString s.index

def CategoryId.text (c : CategoryId) : String := "cat" ++ toString c.index

def LabelId.text (l : LabelId) : String := "e" ++ toString l.index

end ConstraintRules
