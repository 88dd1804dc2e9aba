import Lox.Operators

/-!
What can be told of functions.

A program can tell a function's name and whether two functions are the same, and nothing else of
what a function is made of.  With other functions in their places, values have the same truth and
operators give the same results.
-/

namespace Lox.Value

variable {φ : Closure → Closure}

/-- The value, with another function in its place if it is a function. -/
def mapFunction (φ : Closure → Closure) : Value → Value
  | .function f => .function (φ f)
  | v => v

theorem truth_mapFunction (v : Value) : (v.mapFunction φ).truth = v.truth := by
  cases v <;> rfl

theorem text_mapFunction (hname : ∀ f, (φ f).name = f.name) (v : Value) :
    (v.mapFunction φ).text = v.text := by
  cases v with
  | function f => simp only [mapFunction, text, Closure.text, hname]
  | nil | bool _ | number _ | string _ | native _ => rfl

theorem equals_mapFunction {v w : Value}
    (hsame : ∀ f g, v = .function f → w = .function g → (φ f).same (φ g) = f.same g) :
    (v.mapFunction φ).equals (w.mapFunction φ) = v.equals w := by
  cases v with
  | function f =>
    cases w with
    | function g => exact hsame f g rfl rfl
    | nil | bool _ | number _ | string _ | native _ => rfl
  | nil | bool _ | number _ | string _ | native _ => cases w <;> rfl

theorem unary_mapFunction (operator : Kind) (v : Value) :
    (v.mapFunction φ).unary operator = (v.unary operator).map (mapFunction φ) := by
  cases v <;> cases operator <;> rfl

theorem arithmetic_mapFunction (operator : Kind) (x y : Float) :
    (arithmetic operator x y).map (mapFunction φ) = arithmetic operator x y := by
  cases operator <;> rfl

/-- Equality is the only operator that looks at functions. -/
theorem binary_mapFunction (operator : Kind) {v w : Value}
    (hequals : (v.mapFunction φ == w.mapFunction φ) = (v == w)) :
    (v.mapFunction φ).binary operator (w.mapFunction φ) =
      (v.binary operator w).map (mapFunction φ) := by
  unfold binary
  split
  · rw [hequals]
    rfl
  · rw [bne, hequals]
    rfl
  · cases v <;> cases w <;> rfl
  · cases v <;> cases w <;> first | rfl | exact (arithmetic_mapFunction operator _ _).symm

end Lox.Value
