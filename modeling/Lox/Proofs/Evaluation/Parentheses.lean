import Lox.Proofs.Evaluation.Functions

/-!
Trees without parentheses.

Parentheses say how a text is read.  Once it is read, the shape of the tree says the same, and a
grouping stands for what is inside of it.
-/

namespace Lox

mutual

/-- The value, without groupings in the body of the function that it may be. -/
def Value.strip : Value → Value
  | .function f => .function f.strip
  | .nil => .nil
  | .bool b => .bool b
  | .number x => .number x
  | .string text => .string text
  | .native f => .native f

def Closure.strip : Closure → Closure
  | ⟨d, site, scope⟩ => ⟨d.strip, site, scope⟩

/-- The expression with what is inside of each grouping in its place. -/
def Expr.strip : Expr → Expr
  | .grouping e => e.strip
  | .binary left operator right => .binary left.strip operator right.strip
  | .literal v => .literal v.strip
  | .logical left operator right => .logical left.strip operator right.strip
  | .unary operator right => .unary operator right.strip
  | .variable name => .variable name
  | .assign name e => .assign name e.strip
  | .call callee paren es => .call callee.strip paren (Expr.stripAll es)

def Expr.stripAll : List Expr → List Expr
  | [] => []
  | e :: es => e.strip :: Expr.stripAll es

def Expr.stripOptional : Option Expr → Option Expr
  | none => none
  | some e => some e.strip

/-- The statement without groupings, in the bodies of functions too. -/
def Stmt.strip : Stmt → Stmt
  | .print keyword e => .print keyword e.strip
  | .expression e => .expression e.strip
  | .declare name e => .declare name (Expr.stripOptional e)
  | .block ss => .block (Stmt.stripAll ss)
  | .branch c s t => .branch c.strip s.strip (Stmt.stripOptional t)
  | .loop c s => .loop c.strip s.strip
  | .function d => .function d.strip
  | .ret keyword e => .ret keyword (Expr.stripOptional e)

def Stmt.stripAll : List Stmt → List Stmt
  | [] => []
  | s :: ss => s.strip :: Stmt.stripAll ss

def Stmt.stripOptional : Option Stmt → Option Stmt
  | none => none
  | some s => some s.strip

def Declaration.strip : Declaration → Declaration
  | ⟨name, parameters, body⟩ => ⟨name, parameters, Stmt.stripAll body⟩

end

theorem Expr.stripAll_eq (es : List Expr) : Expr.stripAll es = es.map Expr.strip := by
  induction es with
  | nil => rfl
  | cons e es ih => rw [Expr.stripAll, ih, List.map_cons]

theorem Stmt.stripAll_eq (ss : List Stmt) : Stmt.stripAll ss = ss.map Stmt.strip := by
  induction ss with
  | nil => rfl
  | cons s ss ih => rw [Stmt.stripAll, ih, List.map_cons]

theorem Value.strip_eq : Value.strip = Value.mapFunction Closure.strip := by
  funext v
  cases v <;> rfl

/-- A function keeps its name. -/
theorem Closure.name_strip (f : Closure) : f.strip.name = f.name := by
  obtain ⟨⟨name, parameters, body⟩, site, scope⟩ := f
  rfl

/-- Functions stay the same or different. -/
theorem Closure.same_strip (f g : Closure) : f.strip.same g.strip = f.same g := by
  rw [Closure.same, Closure.name_strip, Closure.name_strip]
  cases f
  cases g
  rfl

/-- The expression inside of the groupings around it, with all the groupings that it has itself. -/
def Expr.bare : Expr → Expr
  | .grouping e => e.bare
  | e => e

end Lox
