import Lox.Machine

/-!
How programs run.

One layer of evaluation is given what evaluates and executes the parts of a tree.  Fuel bounds how
many layers are stacked and how often a loop is repeated in each; a run that needs more ends as out
of fuel, and any other end does not depend on the amount of fuel.
-/

namespace Lox

/-- What the natives compute.  They see their arguments and nothing else. -/
abbrev Host := Nat → List Value → Value

/-- What one layer of evaluation asks of the layer below it. -/
structure Layer where
  evaluate : Expr → Action Value
  execute : Site → Stmt → Action Flow

namespace Layer

/-- Executes statements in order up to the first `return`; `first` numbers the first of them. -/
def sequence (l : Layer) (outer : Site) : Nat → List Stmt → Action Flow
  | _, [] => pure .normal
  | first, s :: rest => do
    match ← l.execute (first :: outer) s with
    | .normal => l.sequence outer (first + 1) rest
    | .returned v => return .returned v

/-- Executes the statements of a block in `scope`. -/
def block (l : Layer) (site : Site) (body : List Stmt) (scope : ScopeId) : Action Flow :=
  Action.inScope scope (l.sequence site 0 body)

/-- Evaluates arguments from left to right. -/
def evaluateAll (l : Layer) : List Expr → Action (List Value)
  | [] => pure []
  | e :: rest => do
    let v ← l.evaluate e
    let others ← l.evaluateAll rest
    return v :: others

/-- Binds each parameter to its argument in `scope`.  Where one of the two runs out, the rest of
the other is left alone. -/
def bindParameters (scope : ScopeId) : List Token → List Value → Action Unit
  | x :: parameters, v :: arguments => do
    modify fun m => { m with store := m.store.define scope x.lexeme v }
    bindParameters scope parameters arguments
  | _, _ => pure ()

/-- Runs the body of a function in a new scope inside the one where it was declared. -/
def call (l : Layer) (f : Closure) (arguments : List Value) : Action Value := do
  let scope ← Action.openScope f.scope
  bindParameters scope f.declaration.parameters arguments
  match ← l.block f.site f.declaration.body scope with
  | .normal => return .nil
  | .returned v => return v

/-- Blames a call that gives more or fewer arguments than there are parameters. -/
def requireArity (paren : Token) (expected given : Nat) : Action Unit :=
  if expected = given then pure () else Action.fail paren (.wrongArity expected given)

/-- Calls any value, which only works for functions. -/
def apply (l : Layer) (host : Host) (callee : Value) (paren : Token) (arguments : List Value) :
    Action Value :=
  match callee with
  | .function f => do
    requireArity paren f.arity arguments.length
    l.call f arguments
  | .native f => do
    requireArity paren f.arity arguments.length
    return host f.entry arguments
  | _ => Action.fail paren .notCallable

/-- Evaluates an expression with the layer below for its parts.  Operands are evaluated from left
to right, and all of them before the operator is looked at, except that `or` and `and` look at
their left operand first. -/
def evaluateOf (l : Layer) (host : Host) : Expr → Action Value
  | .literal v => pure v
  | .grouping e => l.evaluate e
  | .unary operator right => do
    let v ← l.evaluate right
    Action.blame operator (v.unary operator.kind)
  | .binary left operator right => do
    let v ← l.evaluate left
    let w ← l.evaluate right
    Action.blame operator (v.binary operator.kind w)
  | .variable name => Action.lookup name
  | .assign name value => do
    let v ← l.evaluate value
    Action.assign name v
    return v
  | .logical left operator right => do
    let v ← l.evaluate left
    match operator.kind with
    | .kwOr => if v.truth then return v else l.evaluate right
    | .kwAnd => if v.truth then l.evaluate right else return v
    | _ => Action.fail operator .unknownOperator
  | .call callee paren arguments => do
    let f ← l.evaluate callee
    let vs ← l.evaluateAll arguments
    l.apply host f paren vs

/-- The value of an expression that may be absent. -/
def evaluateOptional (l : Layer) : Option Expr → Action Value
  | none => pure .nil
  | some e => l.evaluate e

/-- Repeats the body while the condition holds, at most as often as the fuel allows. -/
def repeatWhile (l : Layer) (site : Site) (condition : Expr) (body : Stmt) : Nat → Action Flow
  | 0 => throw .outOfFuel
  | n + 1 => do
    let v ← l.evaluate condition
    if v.truth then
      match ← l.execute (0 :: site) body with
      | .normal => l.repeatWhile site condition body n
      | .returned w => return .returned w
    else
      return .normal

/-- Executes a statement with the layer below for its parts. -/
def executeOf (l : Layer) (fuel : Nat) (site : Site) : Stmt → Action Flow
  | .print keyword value => do
    let v ← l.evaluate value
    Action.print keyword v
    return .normal
  | .expression value => do
    let _ ← l.evaluate value
    return .normal
  | .declare name initializer => do
    let v ← l.evaluateOptional initializer
    Action.define name.lexeme v
    return .normal
  | .block body => do
    let scope ← Action.openScope (← get).current
    l.block site body scope
  | .branch condition whenTrue whenFalse => do
    let v ← l.evaluate condition
    if v.truth then
      l.execute (0 :: site) whenTrue
    else
      match whenFalse with
      | some s => l.execute (1 :: site) s
      | none => return .normal
  | .loop condition body => l.repeatWhile site condition body fuel
  | .function declaration => do
    let scope := (← get).current
    Action.define declaration.name.lexeme (.function ⟨declaration, site, scope⟩)
    return .normal
  | .ret _ value => do
    let v ← l.evaluateOptional value
    return .returned v

end Layer

mutual

/-- The value of an expression. -/
def evaluate (host : Host) : Nat → Expr → Action Value
  | 0, _ => throw .outOfFuel
  | n + 1, e =>
    Layer.evaluateOf ⟨fun e => evaluate host n e, fun site s => execute host n site s⟩ host e

/-- The effect of a statement at the given site. -/
def execute (host : Host) : Nat → Site → Stmt → Action Flow
  | 0, _, _ => throw .outOfFuel
  | n + 1, site, s =>
    Layer.executeOf ⟨fun e => evaluate host n e, fun site s => execute host n site s⟩ n site s

end

/-- What evaluates and executes with the given fuel. -/
def layer (host : Host) (fuel : Nat) : Layer := ⟨evaluate host fuel, execute host fuel⟩

end Lox
