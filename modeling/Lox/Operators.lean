import Lox.Diagnostic
import Lox.Value

/-!
What operators compute from the values of their operands.
-/

namespace Lox.Value

/-- The value of a prefix operator, from the kind of its token. -/
def unary (operator : Kind) (v : Value) : Except RuntimeFault Value :=
  match operator, v with
  | .minus, number x => .ok (number (-x))
  | .minus, _ => .error .operandNotNumber
  | .bang, v => .ok (bool !v.truth)
  | _, _ => .error .unknownOperator

/-- The value of an operator between two numbers. -/
def arithmetic (operator : Kind) (x y : Float) : Except RuntimeFault Value :=
  match operator with
  | .minus => .ok (number (x - y))
  | .slash => .ok (number (x / y))
  | .star => .ok (number (x * y))
  | .greater => .ok (bool (y < x))
  | .greaterEqual => .ok (bool (y ≤ x))
  | .less => .ok (bool (x < y))
  | .lessEqual => .ok (bool (x ≤ y))
  | _ => .error .unknownOperator

/-- The value of a binary operator, from the kind of its token.  Equality takes any two values, and
addition joins strings too; every other operator looks at its operands before it is looked at
itself. -/
def binary (operator : Kind) (v w : Value) : Except RuntimeFault Value :=
  match operator with
  | .equalEqual => .ok (bool (v == w))
  | .bangEqual => .ok (bool (v != w))
  | .plus =>
    match v, w with
    | number x, number y => .ok (number (x + y))
    | string s, string t => .ok (string (s ++ t))
    | _, _ => .error .operandsNotAddable
  | operator =>
    match v, w with
    | number x, number y => arithmetic operator x y
    | _, _ => .error .operandsNotNumbers

end Lox.Value
