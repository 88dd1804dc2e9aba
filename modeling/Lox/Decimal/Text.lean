import Lox.Decimal.Shortest

/-!
How numbers are written.
-/

namespace Lox.Decimal

/-- The choices that a way of writing numbers makes. -/
structure Layout where
  /-- The power of ten of the first digit from which on all digits are written out. -/
  positionalFrom : Int
  /-- The power of ten of the first digit from which on an exponent is written again. -/
  positionalBelow : Int
  point : Char
  exponentMark : Char
  /-- What stands in front of an exponent that is not negative. -/
  exponentSign : List Char
  notANumber : String
  infinity : String
  zero : String

/-- Numbers from a millionth up to a thousand trillion millions are written in full, all others
with an exponent that shows its sign, and zero has no sign. -/
def layout : Layout where
  positionalFrom := -6
  positionalBelow := 21
  point := '.'
  exponentMark := 'e'
  exponentSign := ['+']
  notANumber := "NaN"
  infinity := "Infinity"
  zero := "0"

namespace Layout

/-- Digits with a point behind the first `whole` of them, and no point where nothing follows. -/
def pointed (l : Layout) (digits : List Char) (whole : Nat) : List Char :=
  match digits.drop whole with
  | [] => digits
  | fraction => digits.take whole ++ l.point :: fraction

/-- All digits written out; the first stands for units of `10 ^ leading`. -/
def positional (l : Layout) (digits : List Char) (leading : Int) : List Char :=
  if leading < 0 then
    '0' :: l.point :: List.replicate ((-leading).toNat - 1) '0' ++ digits
  else
    let whole := leading.toNat + 1
    l.pointed (digits ++ List.replicate (whole - digits.length) '0') whole

/-- One digit in front of the point, and an exponent. -/
def exponential (l : Layout) (digits : List Char) (leading : Int) : List Char :=
  let magnitude := Nat.toDigits 10 leading.natAbs
  let sign := if leading < 0 then ['-'] else l.exponentSign
  l.pointed digits 1 ++ l.exponentMark :: sign ++ magnitude

/-- The text of a positive decimal number.  Zeros at the end of its coefficient are no digits of
their own. -/
def scaled (l : Layout) (s : Scaled) : List Char :=
  let all := Nat.toDigits 10 s.coefficient
  let leading := s.place + all.length - 1
  let digits := (all.reverse.dropWhile (· == '0')).reverse
  if l.positionalFrom ≤ leading ∧ leading < l.positionalBelow then l.positional digits leading
  else l.exponential digits leading

/-- The text of a double. -/
def number (l : Layout) (x : Float) : String :=
  let bits := x.toBits.toNat
  let exponent := bits / Nat.pow 2 52 % Nat.pow 2 11
  let fraction := bits % Nat.pow 2 52
  let sign := if bits < Nat.pow 2 63 then "" else "-"
  if exponent = 2047 then
    if fraction = 0 then sign ++ l.infinity else l.notANumber
  else if exponent = 0 ∧ fraction = 0 then l.zero
  else sign ++ String.ofList (l.scaled (shortest (.ofBits exponent fraction)))

end Layout

/-- The text of a double in this language. -/
def text (x : Float) : String := layout.number x

end Lox.Decimal
