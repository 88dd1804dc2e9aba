import Mathlib.Data.List.Forall2
import Lox.Proofs.Evaluation.Actions
import Lox.Proofs.Evaluation.Roles
import Lox.Proofs.Evaluation.Showing

/-!
What two runs can be compared by.

Evaluation handles every expression and every statement by a few actions, with what evaluates and
executes their parts in between.  So to compare two runs it is enough to say which values, scopes
and trees count as alike, and to show that alike things are handled alike by the actions.  This
file says what has to be shown.  That it is enough is proved behind it, once for all comparisons.
-/

namespace Lox

/-- What is known of the scopes that are current where two actions start. -/
inductive Place where
  | anywhere
  /-- Names can be looked up from there. -/
  | reading
  /-- Names can also be bound there. -/
  | declaring

theorem Place.reading_ne : Place.reading ≠ .anywhere := by simp

theorem Place.declaring_ne : Place.declaring ≠ .anywhere := by simp

/-- What counts as alike in two runs.  Scopes are made on the way, so it depends on a world, which
is what is known of the scopes so far. -/
structure Likeness where
  World : Type
  Later : World → World → Prop
  token : Role → Token → Token → Prop
  value : World → Value → Value → Prop
  /-- Scopes from which names are looked up. -/
  reads : World → ScopeId → ScopeId → Prop
  /-- Scopes in which names are bound. -/
  scope : World → ScopeId → ScopeId → Prop
  expr : World → Expr → Expr → Prop
  stmt : World → Place → Stmt → Stmt → Prop
  declaration : World → Declaration → Declaration → Prop
  /-- Actions that are alike from a world on, with results that are alike in a later one. -/
  Acts : World → Place → {α : Type} → (World → α → α → Prop) → Action α → Action α → Prop
  /-- How the first run shows values. -/
  shown : Value → String := Value.text
  /-- How the second run shows values. -/
  shown' : Value → String := Value.text

namespace Likeness

variable (c : Likeness) (w : c.World)

/-! ## Parts of alike things -/

inductive ValueParts : Value → Value → Prop
  | function {f f' : Closure} : f'.site = f.site → c.reads w f.scope f'.scope →
      c.declaration w f.declaration f'.declaration → ValueParts (.function f) (.function f')
  | native {f : Native} : ValueParts (.native f) (.native f)
  | other {v v' : Value} : v.arity? = none → v'.arity? = none → ValueParts v v'

inductive FlowParts : Flow → Flow → Prop
  | normal : FlowParts .normal .normal
  | returned {v v' : Value} : c.value w v v' → FlowParts (.returned v) (.returned v')

structure DeclarationParts (d d' : Declaration) : Prop where
  parameters : List.Forall₂ (c.token .name) d.parameters d'.parameters
  body : List.Forall₂ (c.stmt w .declaring) d.body d'.body

inductive ExprParts : Expr → Expr → Prop
  | literal {v v' : Value} : c.value w v v' → ExprParts (.literal v) (.literal v')
  | grouping {e e' : Expr} : c.expr w e e' → ExprParts (.grouping e) (.grouping e')
  | unary {t t' : Token} {e e' : Expr} : c.token .sign t t' → c.expr w e e' →
      ExprParts (.unary t e) (.unary t' e')
  | binary {l l' r r' : Expr} {t t' : Token} : c.expr w l l' → c.token .operator t t' →
      c.expr w r r' → ExprParts (.binary l t r) (.binary l' t' r')
  | logical {l l' r r' : Expr} {t t' : Token} : c.expr w l l' → c.token .connective t t' →
      c.expr w r r' → ExprParts (.logical l t r) (.logical l' t' r')
  | variable {t t' : Token} : c.token .name t t' → ExprParts (.variable t) (.variable t')
  | assign {t t' : Token} {e e' : Expr} : c.token .name t t' → c.expr w e e' →
      ExprParts (.assign t e) (.assign t' e')
  | call {f f' : Expr} {t t' : Token} {es es' : List Expr} : c.expr w f f' →
      c.token (.closing es.length) t t' → List.Forall₂ (c.expr w) es es' →
      ExprParts (.call f t es) (.call f' t' es')

inductive StmtParts : Place → Stmt → Stmt → Prop
  | print {place : Place} {t t' : Token} {e e' : Expr} : c.token .printing t t' →
      c.expr w e e' → StmtParts place (.print t e) (.print t' e')
  | expression {place : Place} {e e' : Expr} : c.expr w e e' →
      StmtParts place (.expression e) (.expression e')
  | declare {t t' : Token} {e e' : Option Expr} : c.token .name t t' →
      Option.Rel (c.expr w) e e' → StmtParts .declaring (.declare t e) (.declare t' e')
  | block {place : Place} {ss ss' : List Stmt} : List.Forall₂ (c.stmt w .declaring) ss ss' →
      StmtParts place (.block ss) (.block ss')
  | branch {place : Place} {e e' : Expr} {s s' : Stmt} {t t' : Option Stmt} : c.expr w e e' →
      c.stmt w place s s' → Option.Rel (c.stmt w place) t t' →
      StmtParts place (.branch e s t) (.branch e' s' t')
  | loop {place : Place} {e e' : Expr} {s s' : Stmt} : c.expr w e e' → c.stmt w place s s' →
      StmtParts place (.loop e s) (.loop e' s')
  | function {d d' : Declaration} : c.token .name d.name d'.name → c.declaration w d d' →
      StmtParts .declaring (.function d) (.function d')
  | ret {place : Place} {t t' : Token} {e e' : Option Expr} : Option.Rel (c.expr w) e e' →
      StmtParts place (.ret t e) (.ret t' e')

end Likeness

/-- A likeness that every action of evaluation keeps. -/
structure Congruence extends Likeness where
  later_trans : ∀ {w w' w''}, Later w w' → Later w' w'' → Later w w''
  value_later : ∀ {w w' v v'}, Later w w' → value w v v' → value w' v v'
  scope_later : ∀ {w w' i j}, Later w w' → scope w i j → scope w' i j
  expr_later : ∀ {w w' e e'}, Later w w' → expr w e e' → expr w' e e'
  stmt_later : ∀ {w w' place s s'}, Later w w' → stmt w place s s' → stmt w' place s s'
  declaration_later : ∀ {w w' d d'}, Later w w' → declaration w d d' → declaration w' d d'
  -- What alike things consist of.
  value_parts : ∀ {w v v'}, value w v v' → toLikeness.ValueParts w v v'
  stmt_parts : ∀ {w place s s'}, stmt w place s s' → toLikeness.StmtParts w place s s'
  stmt_place : ∀ {w place s s'}, stmt w place s s' → place ≠ .anywhere
  declaration_parts : ∀ {w d d'}, declaration w d d' → toLikeness.DeclarationParts w d d'
  truth : ∀ {w v v'}, value w v v' → v'.truth = v.truth
  nil : ∀ {w}, value w .nil .nil
  closure : ∀ {w d d' i j} site, declaration w d d' → scope w i j →
    value w (.function ⟨d, site, i⟩) (.function ⟨d', site, j⟩)
  -- How actions are put together.
  pure : ∀ {w place} {α : Type} {R : World → α → α → Prop} {a b}, R w a b →
    Acts w place R (pure a) (pure b)
  bind : ∀ {w place} {α β : Type} {R : World → α → α → Prop} {S : World → β → β → Prop} {p q f g},
    Acts w place R p q → (∀ w' a b, Later w w' → R w' a b → Acts w' place S (f a) (g b)) →
    Acts w place S (p >>= f) (q >>= g)
  of_reading : ∀ {w place} {α : Type} {R : World → α → α → Prop} {p q}, place ≠ .anywhere →
    Acts w .reading R p q → Acts w place R p q
  exhausted : ∀ {w place} {α : Type} {R : World → α → α → Prop},
    Acts w place R (throw .outOfFuel) (throw .outOfFuel)
  -- Operators and calls.
  sign : ∀ {w place t t' v v'}, token .sign t t' → value w v v' →
    Acts w place value (Action.blame t (v.unary t.kind)) (Action.blame t' (v'.unary t'.kind))
  operator : ∀ {w place t t' u u' v v'}, token .operator t t' → value w u u' → value w v v' →
    Acts w place value (Action.blame t (u.binary t.kind v)) (Action.blame t' (u'.binary t'.kind v'))
  connective : ∀ {t t'}, token .connective t t' → t'.kind = t.kind
  unknown : ∀ {w place t t'} {α : Type} {R : World → α → α → Prop}, token .connective t t' →
    t.kind ≠ .kwOr → t.kind ≠ .kwAnd →
    Acts w place R (Action.fail t .unknownOperator) (Action.fail t' .unknownOperator)
  notCallable : ∀ {w place t t' n} {α : Type} {R : World → α → α → Prop}, token (.closing n) t t' →
    Acts w place R (Action.fail t .notCallable) (Action.fail t' .notCallable)
  wrongArity : ∀ {w place t t' n k v v'} {α : Type} {R : World → α → α → Prop},
    token (.closing n) t t' → value w v v' → v.arity? = some k → k ≠ n →
    Acts w place R (Action.fail t (.wrongArity k n)) (Action.fail t' (.wrongArity k n))
  -- Names and scopes.
  lookup : ∀ {w t t'}, token .name t t' →
    Acts w .reading value (Action.lookup t) (Action.lookup t')
  assign : ∀ {w t t' v v'}, token .name t t' → value w v v' →
    Acts w .reading (fun _ _ _ => True) (Action.assign t v) (Action.assign t' v')
  define : ∀ {w t t' v v'}, token .name t t' → value w v v' →
    Acts w .declaring (fun _ _ _ => True) (Action.define t.lexeme v) (Action.define t'.lexeme v')
  bindIn : ∀ {w place t t' i j v v'}, token .name t t' → scope w i j → value w v v' →
    Acts w place (fun _ _ _ => True)
      (modify fun m => { m with store := m.store.define i t.lexeme v })
      (modify fun m => { m with store := m.store.define j t'.lexeme v' })
  current : ∀ {w}, Acts w .reading (fun w m n => reads w m.current n.current) get get
  here : ∀ {w}, Acts w .declaring (fun w m n => scope w m.current n.current) get get
  openScope : ∀ {w place i j}, reads w i j →
    Acts w place scope (Action.openScope i) (Action.openScope j)
  inScope : ∀ {w place} {α : Type} {R : World → α → α → Prop} {i j p q}, scope w i j →
    Acts w .declaring R p q → Acts w place R (Action.inScope i p) (Action.inScope j q)
  print : ∀ {w place t t' v v'}, token .printing t t' → value w v v' →
    Acts w place (fun _ _ _ => True) (Action.printAs shown t v) (Action.printAs shown' t' v')

/-- A likeness that evaluation keeps, because its actions do and alike expressions have alike
parts. -/
structure Comparison extends Congruence where
  expr_parts : ∀ {w e e'}, expr w e e' → toLikeness.ExprParts w e e'

/-- Whether natives give alike results for alike arguments. -/
def Host.Alike (c : Likeness) (host : Host) : Prop :=
  ∀ w entry vs vs', List.Forall₂ (c.value w) vs vs' → c.value w (host entry vs) (host entry vs')

end Lox
