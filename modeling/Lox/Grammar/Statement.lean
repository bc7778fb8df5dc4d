import Lox.Grammar.Expression

/-!
# The grammar of statements

```text
declaration → "fun" function | "var" variable | statement
function    → identifier "(" parameters? ")" "{" block
parameters  → identifier ( "," identifier )*
variable    → identifier ( "=" expression )? ";"
statement   → "for" loop | "if" branch | "print" expression ";" | "return" expression? ";"
            | "while" "(" expression ")" statement | "{" block | expression ";"
loop        → "(" ( "var" variable | expression ";" | ";" ) expression? ";" expression? ")"
              statement
branch      → "(" expression ")" statement ( "else" statement )?
block       → declaration* "}"
```
-/

namespace Lox.Grammar

/-- Parameters after the first `count` ones; those past the limit are noted and read all the
same. -/
def parameters : Nat → Nat → Rule (List Token)
  | 0, _ => Rule.fail .outOfSteps
  | n + 1, count => do
    Rule.noteHereIf (mostArguments ≤ count) .tooManyParameters
    let first ← Rule.expect .identifier "parameter name"
    if ← Rule.check .comma then
      let _ ← Rule.advance
      return first :: (← parameters n (count + 1))
    else
      return [first]

def variableRest (n : Nat) : Rule Stmt := do
  let name ← Rule.expect .identifier "variable name"
  let initializer ← Rule.following .equal (expression n)
  let _ ← Rule.expect .semicolon "';' after variable declaration"
  return .variable name initializer

def expressionStatement (n : Nat) : Rule Stmt := do
  let value ← expression n
  let _ ← Rule.expect .semicolon "';' after expression"
  return .expression value

def optionalBefore (kind : Kind) (n : Nat) : Rule (Option Expr) :=
  Rule.unlessAt kind none (some <$> expression n)

def firstClause (n : Nat) : Rule (Option Stmt) := do
  let next ← Rule.peek
  if next.kind = .semicolon then
    let _ ← Rule.advance
    return none
  else if next.kind = .kwVar then
    let _ ← Rule.advance
    some <$> variableRest n
  else
    some <$> expressionStatement n

/-- The meaning of a `for`: a `while` whose body ends with the increment, after the first clause.
Blocks hold the parts together, and a missing condition is true. -/
def forLoop (initializer : Option Stmt) (condition increment : Option Expr) (body : Stmt) : Stmt :=
  let body := match increment with
    | some increment => .block [body, .expression increment]
    | none => body
  let loop := .loop (condition.getD (.literal (.boolean true))) body
  match initializer with
  | some initializer => .block [initializer, loop]
  | none => loop

mutual

def declaration : Nat → Rule Stmt
  | 0 => Rule.fail .outOfSteps
  | n + 1 => do
    let next ← Rule.peek
    if next.kind = .kwFun then
      let _ ← Rule.advance
      functionRest n
    else if next.kind = .kwVar then
      let _ ← Rule.advance
      variableRest n
    else
      statement n

def functionRest : Nat → Rule Stmt
  | 0 => Rule.fail .outOfSteps
  | n + 1 => do
    let name ← Rule.expect .identifier "function name"
    let _ ← Rule.expect .leftParen "'(' after function name"
    let names ← Rule.unlessAt .rightParen [] (parameters n 0)
    let _ ← Rule.expect .rightParen "')' after parameters"
    let _ ← Rule.expect .leftBrace "'\x7b' before function body"
    return .function name names (← blockRest n)

def statement : Nat → Rule Stmt
  | 0 => Rule.fail .outOfSteps
  | n + 1 => do
    match (← Rule.peek).kind with
    | .kwFor =>
      let _ ← Rule.advance
      forRest n
    | .kwIf =>
      let _ ← Rule.advance
      ifRest n
    | .kwPrint =>
      let _ ← Rule.advance
      let value ← expression n
      let _ ← Rule.expect .semicolon "';' after value"
      return .print value
    | .kwReturn =>
      let keyword ← Rule.advance
      let value ← optionalBefore .semicolon n
      let _ ← Rule.expect .semicolon "';' after return value"
      return .return keyword value
    | .kwWhile =>
      let _ ← Rule.advance
      let _ ← Rule.expect .leftParen "'(' after 'while'"
      let condition ← expression n
      let _ ← Rule.expect .rightParen "')' after condition"
      return .loop condition (← statement n)
    | .leftBrace =>
      let _ ← Rule.advance
      return .block (← blockRest n)
    | _ => expressionStatement n

def forRest : Nat → Rule Stmt
  | 0 => Rule.fail .outOfSteps
  | n + 1 => do
    let _ ← Rule.expect .leftParen "'(' after 'for'"
    let initializer ← firstClause n
    let condition ← optionalBefore .semicolon n
    let _ ← Rule.expect .semicolon "';' after loop condition"
    let increment ← optionalBefore .rightParen n
    let _ ← Rule.expect .rightParen "')' after for clauses"
    return forLoop initializer condition increment (← statement n)

/-- What follows the keyword of an `if`. An `else` belongs to the nearest `if` before it. -/
def ifRest : Nat → Rule Stmt
  | 0 => Rule.fail .outOfSteps
  | n + 1 => do
    let _ ← Rule.expect .leftParen "'(' after 'if'"
    let condition ← expression n
    let _ ← Rule.expect .rightParen "')' after if condition"
    let consequent ← statement n
    let alternative ← Rule.following .kwElse (statement n)
    return .branch condition consequent alternative

def blockRest : Nat → Rule (List Stmt)
  | 0 => Rule.fail .outOfSteps
  | n + 1 => do
    let next ← Rule.peek
    if next.kind = .rightBrace || next.kind = .eof then
      let _ ← Rule.expect .rightBrace "'\x7d' after block"
      return []
    else
      let first ← declaration n
      return first :: (← blockRest n)

end

end Lox.Grammar
