/-!
Decimal literals read as doubles.
-/

namespace Lox.Decimal

/-- The number that a row of decimal digits writes. -/
def digitsValue (digits : List Char) : Nat :=
  digits.foldl (fun n d => 10 * n + (d.toNat - '0'.toNat)) 0

/-- The double nearest to the number with the given digits before and behind the point, a half
going to the even neighbour, and infinity when that number is too large. -/
def read (whole fraction : List Char) : Float :=
  Float.ofScientific (digitsValue (whole ++ fraction)) true fraction.length

end Lox.Decimal
