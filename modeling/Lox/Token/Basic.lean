import Lox.Decimal.Layout
import Lox.Token.Kind

/-!
# Tokens

A token is a kind, the text it was read from, the value of a literal, and the line on which the
text ends.
-/

namespace Lox

inductive Literal where
  | number (value : Float)
  | string (text : String)
  deriving Repr, DecidableEq

def Literal.text : Literal → String
  | .number value => Decimal.Layout.plain.write value
  | .string text => text

structure Token where
  kind : Kind
  lexeme : String
  literal : Option Literal
  line : Nat
  deriving Repr, DecidableEq

/-- Kind, lexeme and literal, with single spaces between them. -/
def Token.text (t : Token) : String :=
  match t.literal with
  | some literal => t.kind.name ++ " " ++ t.lexeme ++ " " ++ literal.text
  | none => t.kind.name ++ " " ++ t.lexeme

/-- The token that ends every list of tokens. -/
def Token.atEnd (line : Nat) : Token :=
  { kind := .eof, lexeme := "", literal := none, line := line }

end Lox
