import Lox.Value

/-!
Equality of trees.  Tokens compare with their places, numbers as doubles, function declarations by
their content and function values by identity.
-/

namespace Lox

mutual

def Expr.equals : Expr → Expr → Bool
  | .binary l o r, .binary l' o' r' => l.equals l' && o == o' && r.equals r'
  | .grouping e, .grouping e' => e.equals e'
  | .literal v, .literal v' => v == v'
  | .logical l o r, .logical l' o' r' => l.equals l' && o == o' && r.equals r'
  | .unary o r, .unary o' r' => o == o' && r.equals r'
  | .variable x, .variable x' => x == x'
  | .assign x e, .assign x' e' => x == x' && e.equals e'
  | .call f p es, .call f' p' es' => f.equals f' && p == p' && Expr.equalsAll es es'
  | _, _ => false

def Expr.equalsAll : List Expr → List Expr → Bool
  | [], [] => true
  | e :: es, e' :: es' => e.equals e' && Expr.equalsAll es es'
  | _, _ => false

end

/-- Equality of an expression that may be absent. -/
def Expr.equalsOptional : Option Expr → Option Expr → Bool
  | none, none => true
  | some e, some e' => e.equals e'
  | _, _ => false

mutual

def Stmt.equals : Stmt → Stmt → Bool
  | .print k e, .print k' e' => k == k' && e.equals e'
  | .expression e, .expression e' => e.equals e'
  | .declare x e, .declare x' e' => x == x' && Expr.equalsOptional e e'
  | .block ss, .block ss' => Stmt.equalsAll ss ss'
  | .branch c t e, .branch c' t' e' =>
    c.equals c' && t.equals t' && Stmt.equalsOptional e e'
  | .loop c b, .loop c' b' => c.equals c' && b.equals b'
  | .function d, .function d' => d.equals d'
  | .ret k e, .ret k' e' => k == k' && Expr.equalsOptional e e'
  | _, _ => false

def Stmt.equalsAll : List Stmt → List Stmt → Bool
  | [], [] => true
  | s :: ss, s' :: ss' => s.equals s' && Stmt.equalsAll ss ss'
  | _, _ => false

/-- Equality of a statement that may be absent. -/
def Stmt.equalsOptional : Option Stmt → Option Stmt → Bool
  | none, none => true
  | some s, some s' => s.equals s'
  | _, _ => false

def Declaration.equals : Declaration → Declaration → Bool
  | ⟨x, xs, ss⟩, ⟨x', xs', ss'⟩ => x == x' && xs == xs' && Stmt.equalsAll ss ss'

end

instance : BEq Expr := ⟨Expr.equals⟩

instance : BEq Stmt := ⟨Stmt.equals⟩

end Lox
