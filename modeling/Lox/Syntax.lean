import Lox.Token

/-!
Programs and the values they compute.

Syntax and values are one mutual family.  A function value holds the declaration it came from, and
a literal holds any value at all, although the texts of programs only write the simple ones.
-/

namespace Lox

/-- The number of a scope in the store. -/
abbrev ScopeId := Nat

/-- The place of a statement among everything a session has loaded: the index of the statement in
its block, then the index of that block's statement in the block around it, and so on outwards. -/
abbrev Site := List Nat

/-- A function that the host supplies.  The host finds its meaning at `entry`; the name is what
programs see, and two natives of one name count as equal. -/
structure Native where
  name : String
  arity : Nat
  entry : Nat

mutual

inductive Value where
  | nil
  | bool (b : Bool)
  | number (x : Float)
  | string (text : String)
  | function (closure : Closure)
  | native (native : Native)

/-- A declared function with the scope it was declared in.  The site tells apart declarations
that read the same. -/
structure Closure where
  declaration : Declaration
  site : Site
  scope : ScopeId

inductive Expr where
  | binary (left : Expr) (operator : Token) (right : Expr)
  | grouping (inner : Expr)
  | literal (value : Value)
  | logical (left : Expr) (operator : Token) (right : Expr)
  | unary (operator : Token) (right : Expr)
  | variable (name : Token)
  | assign (name : Token) (value : Expr)
  /-- The token is the parenthesis that closes the call, where a failing call is blamed. -/
  | call (callee : Expr) (paren : Token) (arguments : List Expr)

inductive Stmt where
  | print (keyword : Token) (value : Expr)
  | expression (value : Expr)
  | declare (name : Token) (initializer : Option Expr)
  | block (body : List Stmt)
  | branch (condition : Expr) (whenTrue : Stmt) (whenFalse : Option Stmt)
  | loop (condition : Expr) (body : Stmt)
  | function (declaration : Declaration)
  | ret (keyword : Token) (value : Option Expr)

/-- A function's name, parameters and body. -/
structure Declaration where
  name : Token
  parameters : List Token
  body : List Stmt

end

instance : Inhabited Value := ⟨.nil⟩

namespace Declaration

def arity (d : Declaration) : Nat := d.parameters.length

end Declaration

end Lox
