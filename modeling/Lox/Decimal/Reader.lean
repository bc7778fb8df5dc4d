/-!
# Reading decimal digits

A number literal is digits with at most one point among them. Its value is the nearest double.
-/

namespace Lox.Decimal

def ofDigits (digits : List Char) : Nat :=
  digits.foldl (fun n c => 10 * n + (c.toNat - '0'.toNat)) 0

/-- The double nearest to `digits * 10 ^ exponent`. Outside the range of doubles the answer is known
without computing the power: the number of digits after the leading zeros bounds it. -/
def ofScaled (digits : List Char) (exponent : Int) : Float :=
  let first := (digits.dropWhile (· == '0')).length + exponent
  let coefficient := ofDigits digits
  if coefficient = 0 || first < -400 then
    0.0
  else if 400 < first then
    1.0 / 0.0
  else
    Float.ofScientific coefficient (decide (exponent < 0)) exponent.natAbs

def ofNumeral (text : List Char) : Float :=
  let whole := text.takeWhile (· ≠ '.')
  let fraction := (text.dropWhile (· ≠ '.')).drop 1
  ofScaled (whole ++ fraction) (-fraction.length)

end Lox.Decimal
