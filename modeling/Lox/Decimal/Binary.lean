/-!
# The binary form of a double

A double is a sign together with nothing (not a number), an infinity, or a magnitude
`mantissa * 2 ^ exponent`. The form is read off the 64 bits, so that everything said about the
decimal text of a number is said about two integers.
-/

namespace Lox.Decimal

/-- A nonnegative finite magnitude `mantissa * 2 ^ exponent`. -/
structure Binary where
  mantissa : Nat
  exponent : Int
  deriving Repr, DecidableEq

/-- What the 64 bits of a double say. -/
inductive Form where
  | nan
  | infinite (negative : Bool)
  | finite (negative : Bool) (magnitude : Binary)
  deriving Repr, DecidableEq

def Binary.leastExponent : Int := -1074

def twoTo (n : Nat) : Nat :=
  Nat.pow 2 n

def tenTo (n : Nat) : Nat :=
  Nat.pow 10 n

/-- Reads sign, eleven exponent bits and fifty-two fraction bits, highest first. An exponent field
of zero means that the leading one of the mantissa is absent. -/
def Form.ofBits (bits : UInt64) : Form :=
  let word := bits.toNat
  let negative := word / twoTo 63 == 1
  let field : Nat := word / twoTo 52 % twoTo 11
  let fraction := word % twoTo 52
  if field = twoTo 11 - 1 then
    if fraction = 0 then .infinite negative else .nan
  else if field = 0 then
    .finite negative ⟨fraction, Binary.leastExponent⟩
  else
    .finite negative ⟨twoTo 52 + fraction, Binary.leastExponent + (field - 1 : Nat)⟩

def Form.ofFloat (x : Float) : Form :=
  .ofBits x.toBits

/-- Whether the next smaller magnitude is half as far away as the next larger one, as it is below
a power of two. -/
def Binary.crowdedBelow (b : Binary) : Bool :=
  b.mantissa = twoTo 52 && b.exponent ≠ leastExponent

end Lox.Decimal
