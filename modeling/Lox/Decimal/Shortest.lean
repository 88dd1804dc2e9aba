/-!
The shortest decimal that reads back as a given double.

A positive finite double is a significand times a power of two.  Every real number in an interval
around it rounds to it, and its shortest decimal is the one with the fewest digits in that
interval.  Everything here is exact arithmetic on natural numbers.
-/

namespace Lox.Decimal

/-- The real numbers that round to one positive double, in units of `2 ^ unit`.  The bounds belong
to the interval exactly if the significand is even, because halves round to even. -/
structure Rounding where
  low : Nat
  value : Nat
  high : Nat
  unit : Int
  closed : Bool

namespace Rounding

/-- The interval of the double with the given exponent and fraction bits.  The neighbour below a
power of two is only half as far away as the one above, except in the lowest binade. -/
def ofBits (exponent fraction : Nat) : Rounding :=
  let significand := if exponent = 0 then fraction else Nat.pow 2 52 + fraction
  { low := 4 * significand - (if fraction = 0 ∧ 1 < exponent then 1 else 2)
    value := 4 * significand
    high := 4 * significand + 2
    unit := (max exponent 1 : Nat) - 1077
    closed := significand % 2 = 0 }

/-- What `n * 10 ^ place` has to be multiplied by, and what a number of units has to be multiplied
by, to compare the two as natural numbers. -/
def scales (r : Rounding) (place : Int) : Nat × Nat :=
  (Nat.pow 10 place.toNat * Nat.pow 2 (-r.unit).toNat,
    Nat.pow 2 r.unit.toNat * Nat.pow 10 (-place).toNat)

/-- Whether `n * 10 ^ place` rounds to the double. -/
def holds (r : Rounding) (n : Nat) (place : Int) : Bool :=
  let (scale, unit) := r.scales place
  if r.closed then r.low * unit ≤ n * scale && n * scale ≤ r.high * unit
  else r.low * unit < n * scale && n * scale < r.high * unit

/-- The greatest `n` such that `n * 10 ^ place` does not exceed the double. -/
def floorAt (r : Rounding) (place : Int) : Nat :=
  let (scale, unit) := r.scales place
  r.value * unit / scale

/-- Whether the double lies below the middle between `n * 10 ^ place` and its successor on that
grid. -/
def isBelowMiddle (r : Rounding) (n : Nat) (place : Int) : Bool :=
  let (scale, unit) := r.scales place
  2 * r.value * unit < (2 * n + 1) * scale

/-- The multiple of `10 ^ place` that rounds to the double, if there is one.  Only the two
neighbours of the double can be: of two the nearer is taken, and the upper one from the middle. -/
def nearest? (r : Rounding) (place : Int) : Option Nat :=
  let n := r.floorAt place
  match r.holds n place, r.holds (n + 1) place with
  | true, true => some (if r.isBelowMiddle n place then n else n + 1)
  | true, false => some n
  | false, true => some (n + 1)
  | false, false => none

/-- The place of the first digit: the greatest power of ten that does not exceed the double. -/
def leadingPlace (r : Rounding) : Int :=
  let (scale, unit) := r.scales 0
  let whole := r.value * unit / scale
  if whole = 0 then
    -- The least power of ten that lifts the double to one or above.
    -((Nat.toDigits 10 ((scale + r.value * unit - 1) / (r.value * unit) - 1)).length : Int)
  else (Nat.toDigits 10 whole).length - 1

end Rounding

/-- A decimal number `coefficient * 10 ^ place`. -/
structure Scaled where
  coefficient : Nat
  place : Int

/-- The decimal with the fewest digits that rounds to the double.  Seventeen digits always
suffice. -/
def shortest (r : Rounding) : Scaled :=
  let leading := r.leadingPlace
  let found? := (List.range 17).findSome? fun (further : Nat) =>
    (r.nearest? (leading - further)).map (Scaled.mk · (leading - further))
  found?.getD ⟨r.floorAt (leading - 16), leading - 16⟩

end Lox.Decimal
