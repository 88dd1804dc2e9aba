import Lox.Syntax

/-!
The scopes that trees and values refer to: those that their functions were declared in.
-/

namespace Lox

mutual

def Value.scopes : Value → List ScopeId
  | .function f => f.scopes
  | _ => []

def Closure.scopes : Closure → List ScopeId
  | ⟨d, _, scope⟩ => scope :: d.scopes

def Expr.scopes : Expr → List ScopeId
  | .binary left _ right | .logical left _ right => left.scopes ++ right.scopes
  | .grouping e | .unary _ e | .assign _ e => e.scopes
  | .literal v => v.scopes
  | .variable _ => []
  | .call callee _ es => callee.scopes ++ Expr.scopesAll es

def Expr.scopesAll : List Expr → List ScopeId
  | [] => []
  | e :: es => e.scopes ++ Expr.scopesAll es

def Expr.scopesOptional : Option Expr → List ScopeId
  | none => []
  | some e => e.scopes

def Stmt.scopes : Stmt → List ScopeId
  | .print _ e | .expression e => e.scopes
  | .declare _ e | .ret _ e => Expr.scopesOptional e
  | .block ss => Stmt.scopesAll ss
  | .branch c s t => c.scopes ++ s.scopes ++ Stmt.scopesOptional t
  | .loop c s => c.scopes ++ s.scopes
  | .function d => d.scopes

def Stmt.scopesAll : List Stmt → List ScopeId
  | [] => []
  | s :: ss => s.scopes ++ Stmt.scopesAll ss

def Stmt.scopesOptional : Option Stmt → List ScopeId
  | none => []
  | some s => s.scopes

def Declaration.scopes : Declaration → List ScopeId
  | ⟨_, _, body⟩ => Stmt.scopesAll body

end

end Lox
