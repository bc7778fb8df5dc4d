import Lox.Diagnostic.Static

/-!
# Errors while a program runs, and how a run fails

A runtime error has a cause and the line of the token that it is blamed on. `Failure` collects the
ways in which a run can fail, with the exit code of each.
-/

namespace Lox

inductive RuntimeCause where
  | operandNotNumber
  | operandsNotNumbers
  | operandsNotNumbersOrStrings
  | undefinedVariable (name : String)
  /-- There is no rule for the operator. -/
  | invalidOperator (operator : String)
  | notCallable
  | arityMismatch (expected got : Nat)
  deriving Repr, DecidableEq

def RuntimeCause.message : RuntimeCause → String
  | .operandNotNumber => "Operand must be a number."
  | .operandsNotNumbers => "Operands must be numbers."
  | .operandsNotNumbersOrStrings => "Operands must be two numbers or two strings."
  | .undefinedVariable name => "Undefined variable '" ++ name ++ "'."
  | .invalidOperator operator => "Invalid operator '" ++ operator ++ "'."
  | .notCallable => "Can only call functions."
  | .arityMismatch expected got =>
    "Expected " ++ toString expected ++ " arguments but got " ++ toString got ++ "."

structure RuntimeError where
  line : Nat
  cause : RuntimeCause
  deriving Repr, DecidableEq

def RuntimeError.text (e : RuntimeError) : String :=
  e.cause.message ++ "\n[line " ++ toString e.line ++ "]"

def RuntimeError.undefined (name : Token) : RuntimeError :=
  { line := name.line, cause := .undefinedVariable name.lexeme }

inductive Failure where
  /-- Something outside the program, such as a file that cannot be read. -/
  | internal (message : String)
  | syntactic (errors : List SyntaxError)
  | binding (errors : List BindingError)
  | runtime (error : RuntimeError)
  deriving Repr, DecidableEq

namespace Failure

def exitCode : Failure → Nat
  | .internal _ => 74
  | .syntactic _ => 65
  | .binding _ => 65
  | .runtime _ => 70

def diagnostics : Failure → List String
  | .internal _ => []
  | .syntactic errors => errors.map SyntaxError.text
  | .binding errors => errors.map BindingError.text
  | .runtime error => [error.text]

def message : Failure → String
  | .internal message => message
  | f => "\n".intercalate f.diagnostics

/-- What the failure says, with a word in front if it is not the program's. -/
def text : Failure → String
  | .internal message => "InternalError: " ++ message
  | f => f.message

end Failure

end Lox
