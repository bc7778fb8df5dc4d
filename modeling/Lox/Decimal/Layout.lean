import Lox.Decimal.Shortest

/-!
# Decimal text of a number

`Layout` collects the choices that a decimal notation leaves open; `Layout.write` is the one writer
for all of them.
-/

namespace Lox.Decimal

/-- The choices of a notation. A number whose first digit stands for `10 ^ e` is written with an
exponent exactly if `scientific e`; `point` asks for at least one digit after the point. -/
structure Layout where
  infinity : String
  scientific : Int → Bool
  point : Bool

def Layout.plain : Layout :=
  { infinity := "inf", scientific := fun _ => false, point := false }

/-- Positional notation from `10 ^ -4` up to `10 ^ 16`, always with a point; an exponent outside. -/
def Layout.detailed : Layout :=
  { infinity := "inf", scientific := fun e => e < -4 || 16 ≤ e, point := true }

def significant (digits : List Char) : List Char :=
  (digits.reverse.dropWhile (· == '0')).reverse

def zeros (n : Nat) : List Char :=
  List.replicate n '0'

def positional (digits : List Char) (exponent : Int) : List Char × List Char :=
  let whole := digits.length + exponent
  if 0 ≤ exponent then
    (digits ++ zeros exponent.toNat, [])
  else if 0 < whole then
    (digits.take whole.toNat, digits.drop whole.toNat)
  else
    (['0'], zeros (-whole).toNat ++ digits)

/-- A whole part and the digits after the point, if there are any or one is asked for. -/
def Layout.join (layout : Layout) (whole fraction : List Char) : List Char :=
  if fraction.isEmpty then
    if layout.point then whole ++ ['.', '0'] else whole
  else
    whole ++ '.' :: fraction

def scientificText (digits : List Char) (exponent : Int) : List Char :=
  let mantissa := match digits with
    | d :: e :: ds => d :: '.' :: e :: ds
    | short => short
  let first := digits.length + exponent - 1
  let sign := if first < 0 then ['-'] else []
  mantissa ++ 'e' :: sign ++ Nat.toDigits 10 first.natAbs

/-- The text of a nonnegative decimal. Zeros at the end of the coefficient count as scale. -/
def Layout.writeScaled (layout : Layout) (x : Scaled) : List Char :=
  if x.coefficient = 0 then
    layout.join ['0'] []
  else
    let all := Nat.toDigits 10 x.coefficient
    let digits := significant all
    let exponent := x.exponent + (all.length - digits.length : Nat)
    if layout.scientific (digits.length + exponent - 1) then
      scientificText digits exponent
    else
      let (whole, fraction) := positional digits exponent
      layout.join whole fraction

def Layout.write (layout : Layout) (x : Float) : String :=
  let signed (negative : Bool) (text : String) := if negative then "-" ++ text else text
  match Form.ofFloat x with
  | .nan => "NaN"
  | .infinite negative => signed negative layout.infinity
  | .finite negative magnitude =>
    signed negative (String.ofList (layout.writeScaled magnitude.shortest))

example : Layout.plain.write (Float.ofBits 0x444b1ae4d6e2ef50) = "1000000000000000000000" := by
  decide +kernel
example : Layout.plain.write (Float.ofBits 0x8000000000000000) = "-0" := by decide +kernel
example : Layout.detailed.write (Float.ofBits 0x4341c37937e08000) = "1e16" := by decide +kernel
example : Layout.detailed.write (Float.ofBits 0x4008000000000000) = "3.0" := by decide +kernel

end Lox.Decimal
