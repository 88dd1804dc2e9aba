import Lox.Syntax
import Lox.Decimal.Text

/-!
What programs can observe of a value: its truth, its text, and which values it equals.
-/

namespace Lox

/-- The value that a literal token writes. -/
def Token.literal? (t : Token) : Option Value :=
  match t.form with
  | .string text => some (.string text)
  | .number x => some (.number x)
  | .bare .kwTrue _ => some (.bool true)
  | .bare .kwFalse _ => some (.bool false)
  | .bare .kwNil _ => some .nil
  | .bare _ _ => none

namespace Closure

def arity (c : Closure) : Nat := c.declaration.arity

def name (c : Closure) : String := c.declaration.name.lexeme

def text (c : Closure) : String := "<fn " ++ c.name ++ ">"

/-- Two functions are the same when they come from one declaration and closed over one scope.
A declaration is known by its site together with the name it declares there. -/
def same (a b : Closure) : Bool :=
  a.site == b.site && a.scope == b.scope && a.name == b.name

end Closure

namespace Value

/-- Only `nil` and `false` count as false. -/
def truth : Value → Bool
  | nil => false
  | bool b => b
  | _ => true

/-- Equality never converts.  Numbers compare as doubles, functions by identity, and natives by
name. -/
def equals : Value → Value → Bool
  | nil, nil => true
  | bool a, bool b => a == b
  | number x, number y => x == y
  | string s, string t => s == t
  | function f, function g => f.same g
  | native f, native g => f.name == g.name
  | _, _ => false

instance : BEq Value := ⟨equals⟩

/-- The text that `print` writes. -/
def text : Value → String
  | nil => "nil"
  | bool true => "true"
  | bool false => "false"
  | number x => Decimal.text x
  | string s => s
  | function f => f.text
  | native _ => "<native fn>"

end Value

end Lox
