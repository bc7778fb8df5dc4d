import Lox.Decimal.Binary

/-!
# The shortest decimal that reads back

Every real number in a small interval around a double is read as that double. The shortest decimal
of the double is the one in the interval with the fewest digits, and of those the nearest one; a
decimal exactly halfway between two candidates goes to the larger. All of it is computed with
natural numbers.
-/

namespace Lox.Decimal

/-- The number `coefficient * 10 ^ exponent`. -/
structure Scaled where
  coefficient : Nat
  exponent : Int
  deriving Repr, DecidableEq

/-- The reals that are read as one double: those between `low / unit` and `high / unit`, where the
double itself is `value / unit`. The two ends belong to it if `closed`. -/
structure Span where
  low : Nat
  value : Nat
  high : Nat
  unit : Nat
  closed : Bool
  deriving Repr, DecidableEq

/-- The interval reaches halfway to both neighbours, and its ends round to an even mantissa. -/
def Span.ofBinary (b : Binary) : Span :=
  let quarter := b.exponent - 2
  let up := twoTo quarter.toNat
  let below := if b.crowdedBelow then 1 else 2
  { low := (4 * b.mantissa - below) * up
    value := 4 * b.mantissa * up
    high := (4 * b.mantissa + 2) * up
    unit := twoTo (-quarter).toNat
    closed := b.mantissa % 2 == 0 }

def Span.contains (s : Span) (numerator denominator : Nat) : Bool :=
  let x := numerator * s.unit
  if s.closed then
    s.low * denominator ≤ x && x ≤ s.high * denominator
  else
    s.low * denominator < x && x < s.high * denominator

def digitCount (n : Nat) : Nat :=
  (Nat.toDigits 10 n).length

def Span.magnitude (s : Span) : Int :=
  if s.unit ≤ s.value then
    digitCount (s.value / s.unit)
  else
    1 - (digitCount ((s.unit - 1) / s.value) : Int)

/-- The multiple of `10 ^ place` in the interval that is nearest to the value, given by its
coefficient. Only the two multiples around the value can be in the interval if any is. -/
def Span.nearest (s : Span) (place : Int) : Option Nat :=
  let up := tenTo place.toNat
  let down := tenTo (-place).toNat
  let numerator := s.value * down
  let denominator := s.unit * up
  let below := numerator / denominator
  let inside (c : Nat) := s.contains (c * up) down
  match inside below, inside (below + 1) with
  | true, true =>
    some (if 2 * (numerator % denominator) < denominator then below else below + 1)
  | true, false => some below
  | false, true => some (below + 1)
  | false, false => none

/-- No double needs more digits than this. -/
def mostDigits : Nat := 17

/-- The shortest decimal of a magnitude: grids from one digit up are tried in turn. -/
def Binary.shortest (b : Binary) : Scaled :=
  if b.mantissa = 0 then
    ⟨0, 0⟩
  else
    let span := Span.ofBinary b
    let places := (List.range mostDigits).map fun k : Nat => span.magnitude - (k + 1)
    let hit := places.findSome? fun place =>
      (span.nearest place).map fun coefficient => Scaled.mk coefficient place
    hit.getD ⟨span.value / span.unit, 0⟩

-- One tenth, the smallest double, and a value halfway between two candidates of its length.
example : Binary.shortest ⟨7205759403792794, -56⟩ = ⟨1, -1⟩ := by decide +kernel
example : Binary.shortest ⟨1, -1074⟩ = ⟨5, -324⟩ := by decide +kernel
example : Binary.shortest ⟨9259760309148250, -3⟩ = ⟨11574700386435313, -1⟩ := by decide +kernel

end Lox.Decimal
