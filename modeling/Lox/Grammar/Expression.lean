import Lox.Grammar.Reading
import Lox.Value

/-!
The grammar of expressions.

Assignment binds loosest, then come six levels of operators that group to the left, then prefix
operators, calls, and primary expressions.

A number bounds each recursion.  It never cuts a phrase short: a nested phrase starts behind a
token that was taken, so a bound that is no less than the number of tokens left stays so, and where
the bound is zero there is no token left to start an expression.
-/

namespace Lox

/-- The levels of binary operators. -/
inductive Level where
  | disjunction | conjunction | equality | comparison | sum | product
deriving DecidableEq, Repr

namespace Level

/-- From the loosest to the tightest. -/
def all : List Level := [disjunction, conjunction, equality, comparison, sum, product]

def operators : Level → List Kind
  | disjunction => [.kwOr]
  | conjunction => [.kwAnd]
  | equality => [.bangEqual, .equalEqual]
  | comparison => [.greater, .greaterEqual, .less, .lessEqual]
  | sum => [.minus, .plus]
  | product => [.slash, .star]

/-- The tree of two operands.  The loosest two levels do not always evaluate the right one. -/
def combine : Level → Expr → Token → Expr → Expr
  | disjunction | conjunction => .logical
  | _ => .binary

end Level

namespace Parser

/-- Operators of one level with their right operands, grouped to the left. -/
def operations (level : Level) (operand : Parser Expr) : Nat → Expr → Parser Expr
  | 0, left => pure left
  | n + 1, left => do
    let t ← peek
    if level.operators.contains t.kind then
      let _ ← take
      let right ← operand
      operations level operand n (level.combine left t right)
    else
      pure left

/-- An expression of the given levels, loosest first, over tighter operands. -/
def operators (bound : Nat) (operand : Parser Expr) : List Level → Parser Expr
  | [] => operand
  | level :: tighter => do
    let left ← operators bound operand tighter
    operations level (operators bound operand tighter) bound left

/-- A list of arguments, of which `count` were read before. -/
def arguments (expression : Parser Expr) : Nat → Nat → Parser (List Expr)
  | 0, count => do
    limit count .tooManyArguments
    return [← expression]
  | n + 1, count => do
    limit count .tooManyArguments
    let first ← expression
    if ← skip .comma then
      return first :: (← arguments expression n (count + 1))
    else
      return [first]

/-- What stands between the parentheses of a call. -/
def argumentList (bound : Nat) (expression : Parser Expr) : Parser (List Expr) := do
  if (← peek).kind = .rightParen then pure [] else arguments expression bound 0

/-- The argument lists behind a callee. -/
def calls (bound : Nat) (expression : Parser Expr) : Nat → Expr → Parser Expr
  | 0, callee => pure callee
  | n + 1, callee => do
    if ← skip .leftParen then
      let given ← argumentList bound expression
      let paren ← expect .afterArguments
      calls bound expression n (.call callee paren given)
    else
      pure callee

/-- A literal, a name, or an expression in parentheses. -/
def primary (expression : Parser Expr) : Parser Expr := do
  let t ← peek
  match t.literal? with
  | some v =>
    let _ ← take
    return .literal v
  | none =>
    match t.kind with
    | .identifier =>
      let _ ← take
      return .variable t
    | .leftParen =>
      let _ ← take
      let inner ← expression
      let _ ← expect .afterGrouping
      return .grouping inner
    | _ => missingExpression

/-- Prefix operators in front of a call. -/
def unary (bound : Nat) (expression : Parser Expr) : Nat → Parser Expr
  | 0 => missingExpression
  | n + 1 => do
    let t ← peek
    if t.kind = .bang ∨ t.kind = .minus then
      let _ ← take
      return .unary t (← unary bound expression n)
    else
      let callee ← primary expression
      calls bound expression bound callee

/-- An assignment or anything tighter.  What stands left of the sign is read as an expression
first, and only a variable can be assigned to; otherwise the left side stays as it is. -/
def assignment : Nat → Parser Expr
  | 0 => missingExpression
  | n + 1 => do
    let target ← operators (n + 1) (unary (n + 1) (assignment n) (n + 1)) Level.all
    let t ← peek
    if t.kind = .equal then
      let _ ← take
      let value ← assignment n
      match target with
      | .variable x => return .assign x value
      | _ =>
        report t .invalidAssignmentTarget
        return target
    else
      return target

end Parser

end Lox
