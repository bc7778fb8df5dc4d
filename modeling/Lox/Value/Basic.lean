import Lox.Syntax.Tree
import Lox.Text.Quoted

/-!
# Values

The values of a running program. A function has an identity, which is all that comparing functions
looks at; a function declared in the program also has what it captured where it was declared. On a
machine that is the number of a frame, which is what the types below stand for when they stand
alone.
-/

namespace Lox

inductive Callee (κ : Type := Nat) where
  /-- The built-in function that tells the time. -/
  | clock
  /-- A declared function and what it captured. -/
  | closure (function : Function) (captured : κ)
  deriving Repr

structure Callable (κ : Type := Nat) where
  identity : Nat
  callee : Callee κ
  deriving Repr

namespace Callable

variable {κ : Type}

def name (c : Callable κ) : String :=
  match c.callee with
  | .clock => "clock"
  | .closure function _ => function.name.lexeme

def arity (c : Callable κ) : Nat :=
  match c.callee with
  | .clock => 0
  | .closure function _ => function.parameters.length

def text (c : Callable κ) : String :=
  match c.callee with
  | .clock => "<native fn>"
  | .closure function _ => "<fn " ++ function.name.lexeme ++ ">"

/-- A text that tells the two sorts of functions apart and quotes the name. -/
def detail (c : Callable κ) : String :=
  match c.callee with
  | .clock => "Native \x7b name: " ++ Text.quoted c.name ++ ", arity: " ++
    toString c.arity ++ " \x7d"
  | .closure .. => "Lox(" ++ Text.quoted c.name ++ ")"

end Callable

inductive Value (κ : Type := Nat) where
  | nil
  | boolean (value : Bool)
  | number (value : Float)
  | string (text : String)
  | callable (function : Callable κ)
  deriving Repr

namespace Value

variable {κ : Type}

def ofConstant : Constant → Value κ
  | .nil => nil
  | .boolean value => boolean value
  | .number value => number value
  | .string text => string text

/-- Numbers are written without an exponent, and infinities by their full name. -/
def numberLayout : Decimal.Layout :=
  { Decimal.Layout.plain with infinity := "Infinity" }

def text : Value κ → String
  | nil => "nil"
  | boolean true => "true"
  | boolean false => "false"
  | number value => numberLayout.write value
  | string text => text
  | callable function => function.text

/-- `nil` and `false` count as false, everything else as true. -/
def truthy : Value κ → Bool
  | nil => false
  | boolean value => value
  | _ => true

/-- Equality never crosses types; functions are equal if they are the same one. -/
def equals : Value κ → Value κ → Bool
  | nil, nil => true
  | boolean a, boolean b => a == b
  | number a, number b => a == b
  | string a, string b => a == b
  | callable f, callable g => f.identity == g.identity
  | _, _ => false

end Value

end Lox
