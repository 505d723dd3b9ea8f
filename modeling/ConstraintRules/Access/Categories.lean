import ConstraintRules.Access.Path

/-! Lookup categories: searches along one path share an index. Members are added
until the category is first read, which freezes it. -/

namespace ConstraintRules

structure Category where
  path : AccessPath
  members : List OccurrenceId := []
  master : Bool := false
  /-- Set by the first read, after which the members no longer change. -/
  frozen : Bool := false
deriving DecidableEq

def Category.enroll (c : Category) (o : OccurrenceId) : Except LookupError Category :=
  if c.frozen then .error (.frozen c.path)
  else if o ∈ c.members then .ok c
  else .ok { c with members := c.members ++ [o] }

structure Categories where
  list : List Category := []
  /-- Where the master stands. -/
  masterId : Option CategoryId := none
deriving DecidableEq

namespace Categories

def empty : Categories := {}

def size (cs : Categories) : Nat := cs.list.length

def get? (cs : Categories) (id : CategoryId) : Option Category := cs.list[id.index]?

def get (cs : Categories) (id : CategoryId) : Except LookupError Category :=
  match cs.get? id with
  | some c => .ok c
  | none => .error (.unknownCategory id)

def find? (cs : Categories) (path : AccessPath) : Option CategoryId :=
  (cs.list.findIdx? fun c => c.path = path).map CategoryId.mk

def push (cs : Categories) (path : AccessPath) : CategoryId × Categories :=
  (⟨cs.size⟩, { cs with list := cs.list ++ [{ path }] })

/-- Adds a category for a path that has none. -/
def add (cs : Categories) (path : AccessPath) : Except LookupError (CategoryId × Categories) :=
  match cs.find? path with
  | some _ => .error (.duplicateCategory path)
  | none => .ok (cs.push path)

def ensure (cs : Categories) (path : AccessPath) : CategoryId × Categories :=
  match cs.find? path with
  | some id => (id, cs)
  | none => cs.push path

def modify (cs : Categories) (id : CategoryId) (f : Category → Category) : Categories :=
  { cs with list := cs.list.modify id.index f }

def enroll (cs : Categories) (id : CategoryId) (o : OccurrenceId) :
    Except LookupError Categories :=
  match cs.get id with
  | .error e => .error e
  | .ok c =>
    match c.enroll o with
    | .error e => .error e
    | .ok c => .ok (cs.modify id fun _ => c)

/-- Makes `o` a member of the category of a path, which is added if there is none. -/
def enter (cs : Categories) (path : AccessPath) (o : OccurrenceId) :
    Except LookupError (CategoryId × Categories) :=
  let (id, cs) := cs.ensure path
  (cs.enroll id o).map fun cs => (id, cs)

def freeze (cs : Categories) (id : CategoryId) : Categories :=
  cs.modify id fun c => { c with frozen := true }

/-- The members of a category, which is frozen by the read. -/
def readMembers (cs : Categories) (id : CategoryId) :
    Except LookupError (List OccurrenceId × Categories) :=
  (cs.get id).map fun c => (c.members, cs.freeze id)

/-- Whether a category's path finds at most one instance. The read freezes the category. -/
def readSingleton (cs : Categories) (id : CategoryId) (arity : Nat) :
    Except LookupError (Bool × Categories) :=
  (cs.get id).map fun c => (c.path.isSingleton arity, cs.freeze id)

def moveMaster (cs : Categories) (id : CategoryId) : Categories :=
  let demoted := match cs.masterId with
    | some old => cs.modify old fun c => { c with master := false }
    | none => cs
  { demoted.modify id fun c => { c with master := true } with masterId := some id }

def promote (cs : Categories) (id : CategoryId) : Except LookupError Categories :=
  (cs.get id).map fun _ => cs.moveMaster id

def master? (cs : Categories) : Option Category := cs.masterId.bind cs.get?

def firstKeyed? (cs : Categories) : Option CategoryId :=
  (cs.list.findIdx? fun c => c.path.kind.isKeyed).map CategoryId.mk

/-- The category to be master: the scan if there is one, else the first keyed one, else a new
unkeyed one. A constraint that is never stored takes no keyed master. -/
def nominate (cs : Categories) (mayBeStored : Bool) : CategoryId × Categories :=
  match cs.find? .scan with
  | some id => (id, cs)
  | none =>
    if mayBeStored then
      match cs.firstKeyed? with
      | some id => (id, cs)
      | none => cs.ensure .scan
    else cs.ensure .neverStored

def electMaster (cs : Categories) (mayBeStored : Bool) : CategoryId × Categories :=
  let (id, cs) := cs.nominate mayBeStored
  (id, cs.moveMaster id)

end Categories

end ConstraintRules
