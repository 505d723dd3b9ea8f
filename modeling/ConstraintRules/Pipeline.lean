import ConstraintRules.Pass.PropagationHistory
import ConstraintRules.Pass.Indexing
import ConstraintRules.Pass.JoinPlan
import ConstraintRules.Pass.SelfActivation
import ConstraintRules.Pass.Removees

/-! The pipeline runs the wanted passes in a fixed order, history last, and
reports what they did. -/

namespace ConstraintRules

/-- Which passes run, and what they may assume about the code that is generated. -/
structure Settings where
  indexing : Bool := true
  joins : Bool := true
  storage : Bool := true
  removees : Bool := true
  recursion : Bool := true
  history : Bool := true
  /-- Binary heads over small domains may index arrays. -/
  arrayIndexing : Bool := true
  /-- A rule never fires again on the instances that are active at the moment. -/
  duplicateElision : Bool := true
deriving DecidableEq

namespace Settings

def default : Settings := {}

/-- Only the passes that code generation cannot do without. -/
def conservative : Settings where
  joins := false
  storage := false
  recursion := false
  history := false
  arrayIndexing := false
  duplicateElision := false

end Settings

structure Report where
  indexing : Option LookupStats := none
  joins : Option JoinStats := none
  storage : Option StorageStats := none
  removees : Option RemovalStats := none
  recursion : Option RecursionStats := none
  history : Option HistoryStats := none
deriving DecidableEq

def LookupStats.text (s : LookupStats) : String :=
  "lookups: " ++ toString s.lookups ++ " lookups in " ++ toString s.categories ++ " categories (" ++
    toString s.keyed ++ " keyed, " ++ toString s.directAccess ++ " direct, " ++
    toString s.neverStored ++ " never stored)\n"

def JoinStats.text (s : JoinStats) : String :=
  "join: " ++ toString s.rules ++ " heads, " ++ toString s.cyclic ++ " cyclic, " ++
    toString s.disconnected ++ " disconnected, " ++ toString s.cliques ++ " cliques\n"

def StorageStats.text (s : StorageStats) : String :=
  "observation: " ++ toString s.unstored ++ " occurrences delayed, " ++ toString s.neverStored ++
    " constraints never stored\n"

def RemovalStats.text (s : RemovalStats) : String :=
  "removal: " ++ toString s.removers ++ " constraints remove " ++ toString s.pairs ++
    " constraints\n"

def RecursionStats.text (s : RecursionStats) : String :=
  "recursion: " ++ toString s.cleared ++ " constraints not recursive, " ++ toString s.recursive ++
    " recursive\n"

def HistoryStats.text (s : HistoryStats) : String :=
  "history: " ++ toString s.occurrences ++ " occurrences and " ++ toString s.rules ++
    " rules optimized\n"

def Report.text (r : Report) : String :=
  r.indexing.elim "" LookupStats.text ++ r.joins.elim "" JoinStats.text ++
    r.storage.elim "" StorageStats.text ++ r.removees.elim "" RemovalStats.text ++
    r.recursion.elim "" RecursionStats.text ++ r.history.elim "" HistoryStats.text

/-- Runs the wanted passes one after the other. The first failure ends the run and keeps what was
written before. -/
def Program.optimize (settings : Settings) (p : Program) : Outcome Report :=
  (Outcome.optionally settings.indexing (assignLookups settings.arrayIndexing) p).andThen
    fun indexing p =>
  (Outcome.optionally settings.joins planJoins p).andThen fun joins p =>
  (Outcome.optionally settings.storage delayStorage p).andThen fun storage p =>
  (Outcome.optionally settings.removees findRemovees p).andThen fun removees p =>
  (Outcome.optionally settings.recursion clearRecursion p).andThen fun recursion p =>
  (Outcome.optionally settings.history (elideHistory settings.duplicateElision) p).andThen
    fun history p =>
  .done { indexing, joins, storage, removees, recursion, history } p

end ConstraintRules
