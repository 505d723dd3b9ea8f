import ConstraintRules.Activation.Load

/-! Outcomes of passes. A failed pass leaves what it has written, one that meets a
dangling identifier leaves nothing. -/

namespace ConstraintRules

inductive PassError where
  | lookup (e : LookupError)
  | danglingCall (d : DanglingCall)
deriving DecidableEq

def PassError.message : PassError → String
  | lookup e => e.message
  | danglingCall d => d.message

inductive Outcome (α : Type) where
  | done (value : α) (program : Program)
  | failed (error : PassError) (program : Program)
  | dangling

namespace Outcome

def andThen {α β : Type} (x : Outcome α) (next : α → Program → Outcome β) : Outcome β :=
  match x with
  | done a p => next a p
  | failed e p => failed e p
  | dangling => dangling

/-- Goes on with a session, if it could be loaded. -/
def withSession {α : Type} (p : Program) (session : Option (Except DanglingCall Activation.Session))
    (next : Activation.Session → Outcome α) : Outcome α :=
  match session with
  | none => dangling
  | some (.error d) => failed (.danglingCall d) p
  | some (.ok s) => next s

def optionally {α : Type} (wanted : Bool) (pass : Program → Outcome α) (p : Program) :
    Outcome (Option α) :=
  if wanted then (pass p).andThen fun a p => done (some a) p else done none p

end Outcome

open Activation

/-- Notes of every constraint what is said by a session on the program's calls and further facts. -/
def Program.noteCalls {α : Type} (p : Program) (further : Option (List Fact))
    (note : Session → Constraint → Constraint) (stats : Session → α) : Outcome α :=
  .withSession p (p.callSession? further) fun s =>
    let s := s.rememberAll (p.constraints.map fun c => .constraint c.id)
    .done (stats s) { p with constraints := p.constraints.map (note s) }

end ConstraintRules
