import Lox.Evaluation
import Lox.Program

/-!
Sessions: sources that run one after the other and share their global variables.
-/

namespace Lox

/-- More fuel than a run can use up in practice. -/
def ampleFuel : Nat := Nat.pow 2 60

/-- The native that tells the time in seconds. -/
def Native.clock : Native := ⟨"clock", 0, 0⟩

/-- A machine between two runs, with the number of statements loaded so far.  Statements are
numbered over the whole session, so that no two of them share a site. -/
structure Session where
  machine : Machine
  loaded : Nat

/-- How the run of a source ended. -/
inductive Outcome where
  | completed
  /-- There were faults in the text, and nothing was executed. -/
  | rejected
  | failed
  | outOfFuel
deriving DecidableEq, Repr

/-- The end of a run with what it has to report. -/
structure Report where
  outcome : Outcome
  diagnostics : List Diagnostic

namespace Session

/-- A session in which only the natives are known. -/
def start (breakage : Option Breakage) : Session where
  machine :=
    { store := Store.empty.addRoot.define 0 Native.clock.name (.native .clock)
      current := 0
      sink := .fresh breakage }
  loaded := 0

/-- Does an action on the machine of a session. -/
def perform {α : Type} (s : Session) (action : Action α) : Except Halt α × Session :=
  match action s.machine with
  | .ok a machine => (.ok a, { s with machine })
  | .error halt machine => (.error halt, { s with machine })

/-- Reserves numbers for statements and gives the first of them. -/
def load (s : Session) (statements : List Stmt) : Nat × Session :=
  (s.loaded, { s with loaded := s.loaded + statements.length })

/-- Executes statements that were loaded from the number `first` on.  They stop at a `return`, which
is no failure. -/
def interpret (s : Session) (host : Host) (fuel first : Nat) (statements : List Stmt) :
    Except Halt Unit × Session :=
  s.perform do let _ ← (layer host fuel).sequence [] first statements

/-- Runs a source text, unless there are faults in it. -/
def run (s : Session) (host : Host) (fuel : Nat) (source : String) : Report × Session :=
  let program := Program.ofSource source
  if program.diagnostics.isEmpty then
    let (first, s) := s.load program.statements
    match s.interpret host fuel first program.statements with
    | (.ok _, s) => (⟨.completed, []⟩, s)
    | (.error (.fault e), s) => (⟨.failed, [e.diagnostic]⟩, s)
    | (.error .outOfFuel, s) => (⟨.outOfFuel, []⟩, s)
  else
    (⟨.rejected, program.diagnostics⟩, s)

/-- The text printed since it was last taken away, and the session without it. -/
def drain (s : Session) : String × Session :=
  let (text, sink) := s.machine.sink.drain
  (text, { s with machine := { s.machine with sink } })

end Session

end Lox
