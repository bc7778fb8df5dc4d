import Lox.Diagnostic.Runtime
import Lox.Value.Basic

/-!
# Operators on values

Operators are named by the kind of their token. A kind that is no operator is an error of its own.
-/

namespace Lox.Value

variable {κ : Type}

def onNumbers (rule : Float → Float → Value κ) : Value κ → Value κ → Except RuntimeCause (Value κ)
  | number a, number b => .ok (rule a b)
  | _, _ => .error .operandsNotNumbers

def plus : Value κ → Value κ → Except RuntimeCause (Value κ)
  | number a, number b => .ok (number (a + b))
  | string a, string b => .ok (string (a ++ b))
  | _, _ => .error .operandsNotNumbersOrStrings

def binary (operator : Kind) (a b : Value κ) : Except RuntimeCause (Value κ) :=
  match operator with
  | .plus => plus a b
  | .minus => onNumbers (fun x y => number (x - y)) a b
  | .star => onNumbers (fun x y => number (x * y)) a b
  | .slash => onNumbers (fun x y => number (x / y)) a b
  | .greater => onNumbers (fun x y => boolean (x > y)) a b
  | .greaterEqual => onNumbers (fun x y => boolean (x ≥ y)) a b
  | .less => onNumbers (fun x y => boolean (x < y)) a b
  | .lessEqual => onNumbers (fun x y => boolean (x ≤ y)) a b
  | .equalEqual => .ok (boolean (a.equals b))
  | .bangEqual => .ok (boolean (!a.equals b))
  | other => .error (.invalidOperator other.name)

def unary (operator : Kind) (a : Value κ) : Except RuntimeCause (Value κ) :=
  match operator, a with
  | .minus, number x => .ok (number (-x))
  | .minus, _ => .error .operandNotNumber
  | .bang, _ => .ok (boolean (!a.truthy))
  | other, _ => .error (.invalidOperator other.name)

end Lox.Value
