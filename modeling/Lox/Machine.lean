import Lox.Operators
import Lox.Sink
import Lox.Store

/-!
The state of a running program and the actions on it.
-/

namespace Lox

structure Machine where
  store : Store
  /-- The innermost scope around the place that is executed. -/
  current : ScopeId
  sink : Sink
deriving Inhabited

/-- How a statement ended: by itself, or with a `return` that the call around it receives. -/
inductive Flow where
  | normal
  | returned (value : Value)

/-- Why execution stopped early. -/
inductive Halt where
  | fault (error : RuntimeError)
  /-- The bound on the depth of execution was reached, so nothing is known about how it goes on. -/
  | outOfFuel

/-- A computation on the machine.  One that halts keeps what it did before. -/
abbrev Action := EStateM Halt Machine

namespace Action

/-- Fails for a reason blamed on a token. -/
def fail {α : Type} (t : Token) (fault : RuntimeFault) : Action α := throw (.fault ⟨t, fault⟩)

/-- A result that was computed without the machine, with a failure blamed on a token. -/
def blame {α : Type} (t : Token) : Except RuntimeFault α → Action α
  | .ok a => pure a
  | .error fault => fail t fault

/-- The value of a variable. -/
def lookup (name : Token) : Action Value := do
  let m ← get
  match m.store.get? m.current name.lexeme with
  | some v => return v
  | none => fail name .undefinedVariable

/-- Gives a variable a new value where it is bound. -/
def assign (name : Token) (v : Value) : Action Unit := fun m =>
  match m.store.assign m.current name.lexeme v with
  | (true, store) => .ok () { m with store }
  | (false, store) => .error (.fault ⟨name, .undefinedVariable⟩) { m with store }

/-- Binds a variable in the current scope. -/
def define (x : String) (v : Value) : Action Unit :=
  modify fun m => { m with store := m.store.define m.current x v }

/-- Prints the text of a value on a line of its own. -/
def print (keyword : Token) (v : Value) : Action Unit := fun m =>
  match m.sink.print v.text with
  | (none, sink) => .ok () { m with sink }
  | (some fault, sink) => .error (.fault ⟨keyword, .outputFailed fault⟩) { m with sink }

/-- A new scope inside `outer`. -/
def openScope (outer : ScopeId) : Action ScopeId :=
  modifyGet fun m => (m.store.size, { m with store := m.store.addChild outer })

/-- Does `action` in `scope` and comes back to the current scope however that ends. -/
def inScope {α : Type} (scope : ScopeId) (action : Action α) : Action α := fun m =>
  let previous := m.current
  match action { m with current := scope } with
  | .ok a m' => .ok a { m' with current := previous }
  | .error halt m' => .error halt { m' with current := previous }

end Action

end Lox
