import Lox.Proofs.Printing.Runs

/-!
Evaluation with a record of what is printed.

The layers of evaluation once more, made of runs instead of actions.  When the records are forgotten
they are the layers that programs run on.
-/

namespace Lox

/-- What evaluates and executes, with records. -/
structure Recording where
  evaluate : Expr → Run Value
  execute : Site → Stmt → Run Flow

namespace Recording

def forget (r : Recording) : Layer :=
  ⟨fun e => (r.evaluate e).action, fun site s => (r.execute site s).action⟩

/-! ## Layers of runs -/

def sequence (r : Recording) (outer : Site) : Nat → List Stmt → Run Flow
  | _, [] => pure .normal
  | first, s :: rest => do
    match ← r.execute (first :: outer) s with
    | .normal => r.sequence outer (first + 1) rest
    | .returned v => return .returned v

def block (r : Recording) (site : Site) (body : List Stmt) (scope : ScopeId) : Run Flow :=
  Run.inScope scope (r.sequence site 0 body)

def evaluateAll (r : Recording) : List Expr → Run (List Value)
  | [] => pure []
  | e :: rest => do
    let v ← r.evaluate e
    let others ← r.evaluateAll rest
    return v :: others

def call (r : Recording) (f : Closure) (arguments : List Value) : Run Value := do
  let scope ← Run.quiet (Action.openScope f.scope) (.openScope _)
  Run.quiet (Layer.bindParameters scope f.declaration.parameters arguments) (.bindParameters _ _ _)
  match ← r.block f.site f.declaration.body scope with
  | .normal => return .nil
  | .returned v => return v

def apply (r : Recording) (host : Host) (callee : Value) (paren : Token)
    (arguments : List Value) : Run Value :=
  match callee with
  | .function f => do
    Run.quiet (Layer.requireArity paren f.arity arguments.length) (.requireArity _ _ _)
    r.call f arguments
  | .native f => do
    Run.quiet (Layer.requireArity paren f.arity arguments.length) (.requireArity _ _ _)
    return host f.entry arguments
  | _ => Run.fail paren .notCallable

def evaluateOf (r : Recording) (host : Host) : Expr → Run Value
  | .literal v => pure v
  | .grouping e => r.evaluate e
  | .unary operator right => do
    let v ← r.evaluate right
    Run.quiet (Action.blame operator (v.unary operator.kind)) (.blame _ _)
  | .binary left operator right => do
    let v ← r.evaluate left
    let w ← r.evaluate right
    Run.quiet (Action.blame operator (v.binary operator.kind w)) (.blame _ _)
  | .variable name => Run.quiet (Action.lookup name) (.lookup name)
  | .assign name value => do
    let v ← r.evaluate value
    Run.quiet (Action.assign name v) (.assign name v)
    return v
  | .logical left operator right => do
    let v ← r.evaluate left
    match operator.kind with
    | .kwOr => if v.truth then return v else r.evaluate right
    | .kwAnd => if v.truth then r.evaluate right else return v
    | _ => Run.fail operator .unknownOperator
  | .call callee paren arguments => do
    let f ← r.evaluate callee
    let vs ← r.evaluateAll arguments
    r.apply host f paren vs

def evaluateOptional (r : Recording) : Option Expr → Run Value
  | none => pure .nil
  | some e => r.evaluate e

def repeatWhile (r : Recording) (site : Site) (condition : Expr) (body : Stmt) : Nat → Run Flow
  | 0 => Run.exhausted
  | n + 1 => do
    let v ← r.evaluate condition
    if v.truth then
      match ← r.execute (0 :: site) body with
      | .normal => r.repeatWhile site condition body n
      | .returned w => return .returned w
    else
      return .normal

def executeOf (r : Recording) (fuel : Nat) (site : Site) : Stmt → Run Flow
  | .print keyword value => do
    let v ← r.evaluate value
    Run.print keyword v
    return .normal
  | .expression value => do
    let _ ← r.evaluate value
    return .normal
  | .declare name initializer => do
    let v ← r.evaluateOptional initializer
    Run.quiet (Action.define name.lexeme v) (.define _ _)
    return .normal
  | .block body => do
    let outer ← Run.current
    let scope ← Run.quiet (Action.openScope outer) (.openScope _)
    r.block site body scope
  | .branch condition whenTrue whenFalse => do
    let v ← r.evaluate condition
    if v.truth then
      r.execute (0 :: site) whenTrue
    else
      match whenFalse with
      | some s => r.execute (1 :: site) s
      | none => return .normal
  | .loop condition body => r.repeatWhile site condition body fuel
  | .function declaration => do
    let scope ← Run.current
    let f := Value.function ⟨declaration, site, scope⟩
    Run.quiet (Action.define declaration.name.lexeme f) (.define _ _)
    return .normal
  | .ret _ value => do
    let v ← r.evaluateOptional value
    return .returned v

end Recording

/-- What evaluates and executes with the given fuel, with records. -/
def recording (host : Host) : Nat → Recording
  | 0 => ⟨fun _ => Run.exhausted, fun _ _ => Run.exhausted⟩
  | n + 1 => ⟨(recording host n).evaluateOf host, (recording host n).executeOf n⟩

/-! ## Forgetting the records -/

namespace Run

theorem action_bind {α β : Type} {p : Run α} {f : α → Run β} {q : Action α} {g : α → Action β}
    (hp : p.action = q) (hf : ∀ a, (f a).action = g a) : (p >>= f).action = q >>= g := by
  subst hp
  exact congrArg (p.action >>= ·) (funext hf)

end Run

namespace Recording

variable (r : Recording)

theorem forget_sequence (outer : Site) (first : Nat) (ss : List Stmt) :
    (r.sequence outer first ss).action = r.forget.sequence outer first ss := by
  induction ss generalizing first with
  | nil => rfl
  | cons s ss ih =>
    refine Run.action_bind rfl fun flow => ?_
    cases flow with
    | normal => exact ih (first + 1)
    | returned v => rfl

theorem forget_block (site : Site) (body : List Stmt) (scope : ScopeId) :
    (r.block site body scope).action = r.forget.block site body scope :=
  congrArg (Action.inScope scope) (r.forget_sequence site 0 body)

theorem forget_evaluateAll (es : List Expr) :
    (r.evaluateAll es).action = r.forget.evaluateAll es := by
  induction es with
  | nil => rfl
  | cons e es ih => exact Run.action_bind rfl fun v => Run.action_bind ih fun _ => rfl

theorem forget_call (f : Closure) (vs : List Value) :
    (r.call f vs).action = r.forget.call f vs := by
  refine Run.action_bind rfl fun scope => Run.action_bind rfl fun _ => ?_
  refine Run.action_bind (r.forget_block _ _ scope) fun flow => ?_
  cases flow <;> rfl

theorem forget_apply (host : Host) (callee : Value) (paren : Token) (vs : List Value) :
    (r.apply host callee paren vs).action = r.forget.apply host callee paren vs := by
  cases callee with
  | function f => exact Run.action_bind rfl fun _ => r.forget_call f vs
  | native f => exact Run.action_bind rfl fun _ => rfl
  | nil | bool _ | number _ | string _ => rfl

theorem forget_evaluateOf (host : Host) (e : Expr) :
    (r.evaluateOf host e).action = r.forget.evaluateOf host e := by
  cases e with
  | literal v => rfl
  | grouping e => rfl
  | unary operator right => rfl
  | binary left operator right => rfl
  | «variable» name => rfl
  | assign name value => rfl
  | logical left operator right =>
    refine Run.action_bind rfl fun v => ?_
    generalize operator.kind = kind
    cases kind <;> cases v.truth <;> rfl
  | call callee paren arguments =>
    refine Run.action_bind rfl fun f => ?_
    exact Run.action_bind (r.forget_evaluateAll arguments) fun vs => r.forget_apply host f paren vs

theorem forget_evaluateOptional (e : Option Expr) :
    (r.evaluateOptional e).action = r.forget.evaluateOptional e := by
  cases e <;> rfl

theorem forget_repeatWhile (site : Site) (condition : Expr) (body : Stmt) (n : Nat) :
    (r.repeatWhile site condition body n).action =
      r.forget.repeatWhile site condition body n := by
  induction n with
  | zero => rfl
  | succ n ih =>
    refine Run.action_bind rfl fun v => ?_
    cases v.truth with
    | false => rfl
    | true =>
      refine Run.action_bind rfl fun flow => ?_
      cases flow with
      | normal => exact ih
      | returned w => rfl

theorem forget_executeOf (fuel : Nat) (site : Site) (s : Stmt) :
    (r.executeOf fuel site s).action = r.forget.executeOf fuel site s := by
  cases s with
  | print keyword value => rfl
  | expression value => rfl
  | declare name initializer =>
    exact Run.action_bind (r.forget_evaluateOptional initializer) fun _ => rfl
  | block body =>
    have hblock : (fun scope => (r.block site body scope).action) = r.forget.block site body :=
      funext (r.forget_block site body)
    show (Run.current.action >>= fun outer => Action.openScope outer >>= fun scope =>
      (r.block site body scope).action) = _
    rw [hblock]
    rfl
  | branch condition whenTrue whenFalse =>
    refine Run.action_bind rfl fun v => ?_
    cases v.truth with
    | true => rfl
    | false => cases whenFalse <;> rfl
  | loop condition body => exact r.forget_repeatWhile site condition body fuel
  | function declaration => rfl
  | ret keyword value => exact Run.action_bind (r.forget_evaluateOptional value) fun _ => rfl

end Recording

/-- Programs run as they do with records. -/
theorem forget_recording (host : Host) (fuel : Nat) :
    (recording host fuel).forget = layer host fuel := by
  induction fuel with
  | zero => rfl
  | succ n ih =>
    have hevaluate : (recording host (n + 1)).forget.evaluate = (layer host (n + 1)).evaluate := by
      funext e
      exact ((recording host n).forget_evaluateOf host e).trans (ih ▸ rfl)
    have hexecute : (recording host (n + 1)).forget.execute = (layer host (n + 1)).execute := by
      funext site s
      exact ((recording host n).forget_executeOf n site s).trans (ih ▸ rfl)
    exact Layer.mk.injEq _ _ _ _ ▸ ⟨hevaluate, hexecute⟩

end Lox
