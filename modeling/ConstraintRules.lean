import ConstraintRules.Ident
import ConstraintRules.SymbolTable
import ConstraintRules.VarSet
import ConstraintRules.Reach
import ConstraintRules.Access.Path
import ConstraintRules.Access.Categories
import ConstraintRules.Access.Lookup
import ConstraintRules.Join.Graph
import ConstraintRules.Join.Component
import ConstraintRules.Join.Cycle
import ConstraintRules.Join.Clique
import ConstraintRules.Join.Hints
import ConstraintRules.Program.Constraint
import ConstraintRules.Program.Occurrence
import ConstraintRules.Program.Rule
import ConstraintRules.Program.Basic
import ConstraintRules.Program.Error
import ConstraintRules.Program.Declare
import ConstraintRules.Program.Draft
import ConstraintRules.Program.Build
import ConstraintRules.Activation.Node
import ConstraintRules.Activation.Facts
import ConstraintRules.Activation.Session
import ConstraintRules.Activation.Load
import ConstraintRules.Pass.Outcome
import ConstraintRules.Pass.SearchPlan
import ConstraintRules.Pass.Indexing
import ConstraintRules.Pass.JoinPlan
import ConstraintRules.Pass.LateStorage
import ConstraintRules.Pass.Removees
import ConstraintRules.Pass.SelfActivation
import ConstraintRules.Pass.PropagationHistory
import ConstraintRules.Pipeline
import ConstraintRules.Proofs.Ledger
import ConstraintRules.Proofs.SessionRuns
import ConstraintRules.Proofs.WellFormed
import ConstraintRules.Proofs.Building
import ConstraintRules.Proofs.ActivationClosure
import ConstraintRules.Proofs.StorageExact
import ConstraintRules.Proofs.Categories
import ConstraintRules.Proofs.Indexing
import ConstraintRules.Proofs.Preparation
import ConstraintRules.Proofs.Growth
import ConstraintRules.Proofs.Repetition
import ConstraintRules.Proofs.HistoryExact
import ConstraintRules.Proofs.IndexingGrowth
import ConstraintRules.Proofs.OptimizeGrowth
import ConstraintRules.Proofs.ActivationSteps
import ConstraintRules.Proofs.RemoveesLeast
import ConstraintRules.Proofs.RecursionExact
import ConstraintRules.Proofs.JoinOrder
import ConstraintRules.Proofs.Enrolment
import ConstraintRules.Proofs.IndexingExact
import ConstraintRules.Proofs.KeySoundness
import ConstraintRules.Proofs.BareReads
import ConstraintRules.Proofs.Parts
import ConstraintRules.Proofs.PassOrder
import ConstraintRules.Proofs.ArrayIndexing
import ConstraintRules.Proofs.SettingsOrder
import ConstraintRules.Proofs.Freezing
import ConstraintRules.Proofs.HistoryAgain
import ConstraintRules.Proofs.IndexingAgain
import ConstraintRules.Proofs.SecondRun
import ConstraintRules.Proofs.NegativeScope
import ConstraintRules.Proofs.Coherence
import ConstraintRules.Proofs.JoinComponents
import ConstraintRules.Proofs.Annotations
import ConstraintRules.Proofs.Schedules
import ConstraintRules.Proofs.JoinLabels
import ConstraintRules.Proofs.JoinClasses
import ConstraintRules.Proofs.CliqueSearch
import ConstraintRules.Proofs.JoinCliques
import ConstraintRules.Proofs.CategoryRuns
import ConstraintRules.Proofs.JoinCycles
import ConstraintRules.Proofs.HistoryInStep
import ConstraintRules.Proofs.IndexingStops
import ConstraintRules.Proofs.DanglingCalls
import ConstraintRules.Proofs.Interning
import ConstraintRules.Proofs.RuleTexts
import ConstraintRules.Proofs.RuleFaults
import ConstraintRules.Proofs.Renaming
import ConstraintRules.Proofs.DirectAccess
