import Lox.Grammar.Rule
import Lox.Syntax.Tree

/-!
# The grammar of expressions

```text
expression  → variable "=" expression | operation
operation   → operands joined by binary operators, six levels, all to the left
unary       → ( "!" | "-" ) unary | call
call        → primary ( "(" arguments? ")" )*
arguments   → expression ( "," expression )*
primary     → number | string | "true" | "false" | "nil" | identifier | "(" expression ")"
```

An assignment to something that is no variable is noted after its right side and keeps its left
side. Every rule takes a number of steps that bounds how deep it goes.
-/

namespace Lox.Grammar

/-- The levels of binary operators, from the loosest to the tightest. -/
inductive Level where
  | disjunction | conjunction | equality | comparison | term | factor
  deriving Repr, DecidableEq

def Level.all : List Level :=
  [disjunction, conjunction, equality, comparison, term, factor]

def Level.operates : Level → Kind → Bool
  | disjunction, .kwOr => true
  | conjunction, .kwAnd => true
  | equality, .bangEqual | equality, .equalEqual => true
  | comparison, .greater | comparison, .greaterEqual => true
  | comparison, .less | comparison, .lessEqual => true
  | term, .minus | term, .plus => true
  | factor, .slash | factor, .star => true
  | _, _ => false

def Level.join (level : Level) (left : Expr) (operator : Token) (right : Expr) : Expr :=
  match level with
  | disjunction | conjunction => .logical left operator right
  | _ => .binary left operator right

def mostArguments : Nat := 255

def isLiteral : Kind → Bool
  | .kwFalse | .kwTrue | .kwNil | .number | .string => true
  | _ => false

def isUnary : Kind → Bool
  | .bang | .minus => true
  | _ => false

mutual

def expression : Nat → Rule Expr
  | 0 => Rule.fail .outOfSteps
  | n + 1 => do
    let left ← operation n Level.all
    if ← Rule.check .equal then
      let wrong ← Rule.finding .invalidTarget
      let _ ← Rule.advance
      let value ← expression n
      match left with
      | .variable name _ => return .assign name value none
      | other =>
        Rule.note wrong
        return other
    else
      return left

/-- Operands of the given levels, looser ones first. -/
def operation : Nat → List Level → Rule Expr
  | 0, _ => Rule.fail .outOfSteps
  | n + 1, [] => unary n
  | n + 1, level :: tighter => do
    let left ← operation n tighter
    operationRest n level tighter left

/-- The operators of a level after a first operand, and their right sides. -/
def operationRest : Nat → Level → List Level → Expr → Rule Expr
  | 0, _, _, _ => Rule.fail .outOfSteps
  | n + 1, level, tighter, left => do
    if level.operates (← Rule.peek).kind then
      let operator ← Rule.advance
      let right ← operation n tighter
      operationRest n level tighter (level.join left operator right)
    else
      return left

def unary : Nat → Rule Expr
  | 0 => Rule.fail .outOfSteps
  | n + 1 => do
    if isUnary (← Rule.peek).kind then
      let operator ← Rule.advance
      return .unary operator (← unary n)
    else
      let callee ← primary n
      callRest n callee

def callRest : Nat → Expr → Rule Expr
  | 0, _ => Rule.fail .outOfSteps
  | n + 1, callee => do
    if ← Rule.check .leftParen then
      let _ ← Rule.advance
      let given ← Rule.unlessAt .rightParen [] (arguments n 0)
      let paren ← Rule.expect .rightParen "')' after arguments"
      callRest n (.call callee paren given)
    else
      return callee

/-- Arguments after the first `count` ones; those past the limit are noted and read all the same. -/
def arguments : Nat → Nat → Rule (List Expr)
  | 0, _ => Rule.fail .outOfSteps
  | n + 1, count => do
    Rule.noteHereIf (mostArguments ≤ count) .tooManyArguments
    let first ← expression n
    if ← Rule.check .comma then
      let _ ← Rule.advance
      return first :: (← arguments n (count + 1))
    else
      return [first]

def primary : Nat → Rule Expr
  | 0 => Rule.fail .outOfSteps
  | n + 1 => do
    let next ← Rule.peek
    if isLiteral next.kind then
      let t ← Rule.advance
      match Constant.ofToken? t with
      | some value => return .literal value
      | none => Rule.fail (.notLiteral t)
    else if next.kind = .identifier then
      return .variable (← Rule.advance) none
    else if next.kind = .leftParen then
      let _ ← Rule.advance
      let inner ← expression n
      let _ ← Rule.expect .rightParen "')' after expression"
      return .grouping inner
    else
      Rule.stuck .expectedExpression

end

end Lox.Grammar
