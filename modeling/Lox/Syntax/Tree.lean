import Lox.Token.Basic

/-!
# Syntax trees

Expressions and statements of Lox. A tree keeps the tokens that later errors point at: operators,
names, the closing parenthesis of a call and the keyword of a `return`. There is no node for `for`:
it stands for a `while` in a block.
-/

namespace Lox

inductive Constant where
  | nil
  | boolean (value : Bool)
  | number (value : Float)
  | string (text : String)
  deriving Repr, DecidableEq

/-- The constant a token stands for, if its kind and the value it carries make one. -/
def Constant.ofToken? (t : Token) : Option Constant :=
  match t.kind, t.literal with
  | .number, some (.number value) => some (.number value)
  | .string, some (.string text) => some (.string text)
  | .kwTrue, _ => some (.boolean true)
  | .kwFalse, _ => some (.boolean false)
  | .kwNil, _ => some .nil
  | _, _ => none

/-- An expression. The `depth` of a name is the number of scopes between its use and its
declaration, and `none` for a global name or before names are bound. -/
inductive Expr where
  | literal (value : Constant)
  | grouping (inner : Expr)
  | unary (operator : Token) (operand : Expr)
  | binary (left : Expr) (operator : Token) (right : Expr)
  /-- `and` and `or`, which may leave their right side alone. -/
  | logical (left : Expr) (operator : Token) (right : Expr)
  | variable (name : Token) (depth : Option Nat)
  | assign (name : Token) (value : Expr) (depth : Option Nat)
  | call (callee : Expr) (paren : Token) (arguments : List Expr)
  deriving Repr

inductive Stmt where
  | expression (value : Expr)
  | print (value : Expr)
  | variable (name : Token) (initializer : Option Expr)
  | block (body : List Stmt)
  | branch (condition : Expr) (consequent : Stmt) (alternative : Option Stmt)
  | loop (condition : Expr) (body : Stmt)
  | function (name : Token) (parameters : List Token) (body : List Stmt)
  | return (keyword : Token) (value : Option Expr)
  deriving Repr

structure Function where
  name : Token
  parameters : List Token
  body : List Stmt
  deriving Repr

end Lox
