import Lox.Value

/-!
Trees written as nested lists in prefix order, for instance `(+ 1 (* 2 3))`.

Every list is a head and its parts with one blank in front of each part.
-/

namespace Lox

/-- A list in parentheses. -/
def listed (head : String) (parts : List String) : String :=
  "(" ++ head ++ parts.foldr (fun part rest => " " ++ part ++ rest) ")"

mutual

def Expr.render : Expr → String
  | .binary l o r => listed o.lexeme [l.render, r.render]
  | .grouping e => listed "group" [e.render]
  | .literal v => v.text
  | .logical l o r => listed o.lexeme [l.render, r.render]
  | .unary o r => listed o.lexeme [r.render]
  | .variable x => x.lexeme
  | .assign x e => listed "assign" [x.lexeme, e.render]
  | .call f _ es => listed "call" (f.render :: Expr.renderAll es)

def Expr.renderAll : List Expr → List String
  | [] => []
  | e :: es => e.render :: Expr.renderAll es

end

/-- The names of parameters, separated by blanks. -/
def Declaration.renderParameters (parameters : List Token) : String :=
  "(" ++ " ".intercalate (parameters.map Token.lexeme) ++ ")"

mutual

def Stmt.render : Stmt → String
  | .print _ e => listed "print" [e.render]
  | .expression e => listed ";" [e.render]
  | .declare x none => listed "var" [x.lexeme]
  | .declare x (some e) => listed "var" [x.lexeme, e.render]
  | .block ss => listed "block" (Stmt.renderAll ss)
  | .branch c t none => listed "if" [c.render, t.render]
  | .branch c t (some e) => listed "if" [c.render, t.render, e.render]
  | .loop c b => listed "while" [c.render, b.render]
  | .function ⟨x, xs, ss⟩ =>
    listed "fun" (x.lexeme :: Declaration.renderParameters xs :: Stmt.renderAll ss)
  | .ret _ none => listed "return" []
  | .ret _ (some e) => listed "return" [e.render]

def Stmt.renderAll : List Stmt → List String
  | [] => []
  | s :: ss => s.render :: Stmt.renderAll ss

end

end Lox
