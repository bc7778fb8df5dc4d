import Lox.Machine.Basic
import Lox.Value.Operators

/-!
# Running programs

The rules by which expressions are evaluated and statements executed. A `return` is no error: it is
a way for a statement to end, which blocks, branches and loops hand on to the call around them.
Every rule takes a number of steps, each part of a program one less than the whole; a run that ends
within some number of steps ends alike within any larger one.
-/

namespace Lox

/-- The bindings of a call: each parameter with its argument, a later one over an earlier one of the
same name. -/
def Function.bindings (function : Function) (arguments : List Value) : Bindings :=
  (function.parameters.zip arguments).foldl
    (fun bindings (parameter, argument) => bindings.insert parameter.lexeme argument) []

mutual

def Expr.evaluate : Nat → Expr → Run Value
  | 0, _ => Run.unfinished
  | _ + 1, .literal value => pure (Value.ofConstant value)
  | n + 1, .grouping inner => inner.evaluate n
  | n + 1, .unary operator operand => do
    let value ← operand.evaluate n
    Run.check operator.line (Value.unary operator.kind value)
  | n + 1, .binary left operator right => do
    let a ← left.evaluate n
    let b ← right.evaluate n
    Run.check operator.line (Value.binary operator.kind a b)
  | n + 1, .logical left operator right => do
    let value ← left.evaluate n
    match operator.kind with
    | .kwOr => if value.truthy then pure value else right.evaluate n
    | .kwAnd => if value.truthy then right.evaluate n else pure value
    | other => Run.fail operator.line (.invalidOperator other.name)
  | _ + 1, .variable name depth => Run.read name depth
  | n + 1, .assign name value depth => do
    let value ← value.evaluate n
    Run.assign name depth value
    pure value
  | n + 1, .call callee paren arguments => do
    let callee ← callee.evaluate n
    let arguments ← Expr.evaluateList n arguments
    match callee with
    | .callable function =>
      if arguments.length = function.arity then
        function.call n arguments
      else
        Run.fail paren.line (.arityMismatch function.arity arguments.length)
    | _ => Run.fail paren.line .notCallable

def Expr.evaluateList : Nat → List Expr → Run (List Value)
  | 0, _ => Run.unfinished
  | _ + 1, [] => pure []
  | n + 1, e :: rest => do
    let value ← e.evaluate n
    let values ← Expr.evaluateList n rest
    pure (value :: values)

/-- The value of a call. A declared function runs in a new frame inside the one of its
declaration. -/
def Callable.call : Nat → Callable → List Value → Run Value
  | 0, _, _ => Run.unfinished
  | n + 1, callable, arguments =>
    match callable.callee with
    | .clock => Run.readClock
    | .closure function frame => do
      let completion ←
        Run.inNewFrame frame (function.bindings arguments) (Stmt.executeList n function.body)
      pure completion.value

def Stmt.execute : Nat → Stmt → Run Completion
  | 0, _ => Run.unfinished
  | n + 1, .expression value => do
    let _ ← value.evaluate n
    pure .normal
  | n + 1, .print value => do
    let value ← value.evaluate n
    Run.printLine value.text
    pure .normal
  | _ + 1, .variable name none => do
    Run.define name.lexeme .nil
    pure .normal
  | n + 1, .variable name (some initializer) => do
    let value ← initializer.evaluate n
    Run.define name.lexeme value
    pure .normal
  | n + 1, .block body => Run.inBlock (Stmt.executeList n body)
  | n + 1, .branch condition consequent alternative => do
    let value ← condition.evaluate n
    if value.truthy then
      consequent.execute n
    else
      match alternative with
      | some alternative => alternative.execute n
      | none => pure .normal
  | n + 1, .loop condition body => do
    let value ← condition.evaluate n
    if value.truthy then
      match ← body.execute n with
      | .normal => (Stmt.loop condition body).execute n
      | .returned value => pure (.returned value)
    else
      pure .normal
  | _ + 1, .function name parameters body => do
    let value ← Run.makeClosure { name := name, parameters := parameters, body := body }
    Run.define name.lexeme value
    pure .normal
  | _ + 1, .return _ none => pure (.returned .nil)
  | n + 1, .return _ (some value) => do
    let value ← value.evaluate n
    pure (.returned value)

def Stmt.executeList : Nat → List Stmt → Run Completion
  | 0, _ => Run.unfinished
  | _ + 1, [] => pure .normal
  | n + 1, first :: rest => do
    match ← first.execute n with
    | .normal => Stmt.executeList n rest
    | .returned value => pure (.returned value)

end

/-- Executes the statements of a program in order. A `return` ends no more than the statement it is
in. -/
def Stmt.runProgram (n : Nat) : List Stmt → Run Unit
  | [] => pure ()
  | first :: rest => do
    let _ ← first.execute n
    Stmt.runProgram n rest

end Lox
