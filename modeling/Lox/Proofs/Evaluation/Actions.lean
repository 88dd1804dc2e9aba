import Lox.Evaluation

/-!
What the smallest actions on a machine do, and the operations that a machine is asked for.
-/

namespace Lox
namespace Action

variable {α β : Type} {m m' : Machine}

/-- The machine that an action leaves behind, however it ends. -/
def after (p : Action α) (m : Machine) : Machine :=
  match p m with
  | .ok _ m' => m'
  | .error _ m' => m'

theorem after_of_ok {p : Action α} {a : α} (h : p m = .ok a m') : p.after m = m' := by
  rw [after, h]

theorem after_of_error {p : Action α} {halt : Halt} (h : p m = .error halt m') :
    p.after m = m' := by
  rw [after, h]

theorem bind_apply (p : Action α) (f : α → Action β) (m : Machine) :
    (p >>= f) m = match p m with
      | .ok a m => f a m
      | .error halt m => .error halt m := by
  show EStateM.bind p f m = _
  unfold EStateM.bind
  cases p m <;> rfl

theorem bind_of_ok {p : Action α} {f : α → Action β} {a : α} (h : p m = .ok a m') :
    (p >>= f) m = f a m' := by
  rw [bind_apply, h]

theorem bind_of_error {p : Action α} {f : α → Action β} {halt : Halt}
    (h : p m = .error halt m') : (p >>= f) m = .error halt m' := by
  rw [bind_apply, h]

theorem lookup_apply (name : Token) (m : Machine) :
    lookup name m = match m.store.get? m.current name.lexeme with
      | some v => .ok v m
      | none => .error (.fault ⟨name, .undefinedVariable⟩) m := by
  unfold lookup
  rw [bind_apply]
  show (match m.store.get? m.current name.lexeme with
    | some v => pure v
    | none => fail name .undefinedVariable : Action Value) m = _
  cases m.store.get? m.current name.lexeme <;> rfl

end Action

/-- What can be asked of a machine from outside. -/
inductive Operation where
  | evaluate (e : Expr)
  | execute (site : Site) (s : Stmt)
  | sequence (site : Site) (first : Nat) (body : List Stmt)
  /-- A block in a scope that is there already. -/
  | block (site : Site) (body : List Stmt) (scope : ScopeId)
  /-- A block in a new scope inside `outer`. -/
  | freshBlock (site : Site) (body : List Stmt) (outer : ScopeId)
  | call (f : Closure) (arguments : List Value)

namespace Operation

/-- Does an operation and forgets what it gives. -/
def perform (host : Host) (fuel : Nat) : Operation → Action Unit
  | evaluate e => do let _ ← (layer host fuel).evaluate e
  | execute site s => do let _ ← (layer host fuel).execute site s
  | sequence site first body => do let _ ← (layer host fuel).sequence site first body
  | block site body scope => do let _ ← (layer host fuel).block site body scope
  | freshBlock site body outer => do
    let scope ← Action.openScope outer
    let _ ← (layer host fuel).block site body scope
  | call f arguments => do let _ ← (layer host fuel).call f arguments

/-- The machine after operations one after the other, each with its fuel and however it ends. -/
def performAll (host : Host) (m : Machine) (operations : List (Nat × Operation)) : Machine :=
  operations.foldl (fun m o => (o.2.perform host o.1).after m) m

end Operation
end Lox
