import Lox.Grammar.Reading
import Lox.Value

/-!
The tokens that trees hold, and what they hold them for.

A tree blames a token of its own when it fails, so which kinds of token it holds decides how it can
fail.  Nothing about trees as such says that an operator is one, or that a call has no more
arguments than there may be.  Trees of which that is true fit.
-/

namespace Lox

/-- The number of arguments that a value can be called with, if it can be called. -/
def Value.arity? : Value → Option Nat
  | .function f => some f.arity
  | .native f => some f.arity
  | _ => none

/-- What a tree holds a token for. -/
inductive Role where
  | sign
  | operator
  | connective
  | name
  | closing (arguments : Nat)
  | printing

/-! ## The tokens of a tree -/

mutual

def Expr.tokens : Expr → List Token
  | .literal _ => []
  | .grouping e => e.tokens
  | .unary t e => t :: e.tokens
  | .binary l t r => l.tokens ++ t :: r.tokens
  | .logical l t r => l.tokens ++ t :: r.tokens
  | .variable x => [x]
  | .assign x e => x :: e.tokens
  | .call f t es => f.tokens ++ t :: Expr.tokensOfAll es

def Expr.tokensOfAll : List Expr → List Token
  | [] => []
  | e :: es => e.tokens ++ Expr.tokensOfAll es

end

def Expr.tokensOfOptional : Option Expr → List Token
  | none => []
  | some e => e.tokens

mutual

def Stmt.tokens : Stmt → List Token
  | .print t e => t :: e.tokens
  | .expression e => e.tokens
  | .declare x e => x :: Expr.tokensOfOptional e
  | .block ss => Stmt.tokensOfAll ss
  | .branch c s t => c.tokens ++ s.tokens ++ Stmt.tokensOfOptional t
  | .loop c s => c.tokens ++ s.tokens
  | .function d => d.tokens
  | .ret t e => t :: Expr.tokensOfOptional e

def Stmt.tokensOfAll : List Stmt → List Token
  | [] => []
  | s :: ss => s.tokens ++ Stmt.tokensOfAll ss

def Stmt.tokensOfOptional : Option Stmt → List Token
  | none => []
  | some s => s.tokens

def Declaration.tokens : Declaration → List Token
  | ⟨name, parameters, body⟩ => name :: parameters ++ Stmt.tokensOfAll body

end

/-! ## Trees that fit -/

/-- An expression whose tokens are allowed in their roles, with literals that cannot be called. -/
inductive Expr.Fits (Allowed : Role → Token → Prop) : Expr → Prop
  | literal {v : Value} : v.arity? = none → Fits Allowed (.literal v)
  | grouping {e : Expr} : Fits Allowed e → Fits Allowed (.grouping e)
  | unary {t : Token} {e : Expr} : Allowed .sign t → Fits Allowed e → Fits Allowed (.unary t e)
  | binary {l r : Expr} {t : Token} : Fits Allowed l → Allowed .operator t → Fits Allowed r →
      Fits Allowed (.binary l t r)
  | logical {l r : Expr} {t : Token} : Fits Allowed l → Allowed .connective t →
      Fits Allowed r → Fits Allowed (.logical l t r)
  | variable {x : Token} : Allowed .name x → Fits Allowed (.variable x)
  | assign {x : Token} {e : Expr} : Allowed .name x → Fits Allowed e → Fits Allowed (.assign x e)
  | call {f : Expr} {t : Token} {es : List Expr} : Fits Allowed f →
      Allowed (.closing es.length) t → (∀ e ∈ es, Fits Allowed e) → Fits Allowed (.call f t es)

/-- A statement of expressions that fit, with functions that do not have too many parameters. -/
inductive Stmt.Fits (Allowed : Role → Token → Prop) : Stmt → Prop
  | print {t : Token} {e : Expr} : Allowed .printing t → e.Fits Allowed →
      Fits Allowed (.print t e)
  | expression {e : Expr} : e.Fits Allowed → Fits Allowed (.expression e)
  | declare {x : Token} {e : Option Expr} : Allowed .name x → (∀ u ∈ e, u.Fits Allowed) →
      Fits Allowed (.declare x e)
  | block {ss : List Stmt} : (∀ s ∈ ss, Fits Allowed s) → Fits Allowed (.block ss)
  | branch {c : Expr} {s : Stmt} {t : Option Stmt} : c.Fits Allowed → Fits Allowed s →
      (∀ u ∈ t, Fits Allowed u) → Fits Allowed (.branch c s t)
  | loop {c : Expr} {s : Stmt} : c.Fits Allowed → Fits Allowed s → Fits Allowed (.loop c s)
  | function {d : Declaration} : Allowed .name d.name → (∀ x ∈ d.parameters, Allowed .name x) →
      d.arity ≤ Parser.arityLimit → (∀ s ∈ d.body, Fits Allowed s) → Fits Allowed (.function d)
  | ret {t : Token} {e : Option Expr} : (∀ u ∈ e, u.Fits Allowed) → Fits Allowed (.ret t e)

end Lox
