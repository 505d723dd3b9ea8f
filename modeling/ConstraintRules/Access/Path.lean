import ConstraintRules.Ident

/-! Access paths: how a search reaches the instances of a constraint, as a kind of
index and the positions of its key. -/

namespace ConstraintRules

/-- The physical index behind a search. -/
inductive IndexKind where
  /-- A linear scan over every live instance. -/
  | scan
  /-- The partner is never in the store and the search always fails. -/
  | neverStored
  | hash
  /-- A hash index over a constraint with set semantics. -/
  | setHash
  /-- A set-semantics hash index whose key is a functional dependency. -/
  | dependencyHash
deriving DecidableEq

namespace IndexKind

def isKeyed : IndexKind → Bool
  | scan | neverStored => false
  | hash | setHash | dependencyHash => true

def isSetSemantics : IndexKind → Bool
  | setHash | dependencyHash => true
  | scan | neverStored | hash => false

def text : IndexKind → String
  | scan => "DEFAULT"
  | neverStored => "NEVER_STORED"
  | hash => "HASH_MAP"
  | setHash => "SS_HASH_MAP"
  | dependencyHash => "FD_SS_HASH_MAP"

end IndexKind

inductive AccessPath where
  | scan
  | neverStored
  | hash (key : List Nat)
  | setHash (key : List Nat)
  | dependencyHash (key : List Nat)
deriving DecidableEq

namespace AccessPath

def kind : AccessPath → IndexKind
  | scan => .scan
  | neverStored => .neverStored
  | hash _ => .hash
  | setHash _ => .setHash
  | dependencyHash _ => .dependencyHash

/-- The argument positions of the key, in order. -/
def key : AccessPath → List Nat
  | scan | neverStored => []
  | hash key | setHash key | dependencyHash key => key

def text (p : AccessPath) : String :=
  p.kind.text ++ "[" ++ ", ".intercalate (p.key.map toString) ++ "]"

/-- Whether at most one instance of a constraint of this arity can match a key. -/
def isSingleton (p : AccessPath) (arity : Nat) : Bool :=
  match p with
  | dependencyHash _ => true
  | setHash key => key.length == arity
  | scan | neverStored | hash _ => false

end AccessPath

/-- What can go wrong with access paths and lookup categories. -/
inductive LookupError where
  /-- A category with this path exists. -/
  | duplicateCategory (path : AccessPath)
  /-- The members of the category with this path were read and may no longer change. -/
  | frozen (path : AccessPath)
  | keyPositionOutOfRange (position arity : Nat)
  | unknownCategory (id : CategoryId)
  /-- An index of this kind has no key. -/
  | unkeyedIndex (kind : IndexKind)
deriving DecidableEq

def LookupError.message : LookupError → String
  | duplicateCategory path => "lookup category " ++ path.text ++ " already exists"
  | frozen path => "lookup information of category " ++ path.text ++ " was already read"
  | keyPositionOutOfRange position arity =>
    "index position " ++ toString position ++ " out of range for key of arity " ++ toString arity
  | unknownCategory id => "unknown lookup category " ++ id.text
  | unkeyedIndex kind => kind.text ++ " lookups cannot carry a key"

namespace AccessPath

/-- The path of a kind and a key. A kind without key admits the empty key only. -/
def ofKey (kind : IndexKind) (key : List Nat) : Except LookupError AccessPath :=
  match kind with
  | .scan => if key.isEmpty then .ok scan else .error (.unkeyedIndex kind)
  | .neverStored => if key.isEmpty then .ok neverStored else .error (.unkeyedIndex kind)
  | .hash => .ok (hash key)
  | .setHash => .ok (setHash key)
  | .dependencyHash => .ok (dependencyHash key)

def position (p : AccessPath) (i : Nat) : Except LookupError Nat :=
  match p.key[i]? with
  | some position => .ok position
  | none => .error (.keyPositionOutOfRange i p.key.length)

end AccessPath

end ConstraintRules
