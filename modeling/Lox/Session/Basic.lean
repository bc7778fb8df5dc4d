import Lox.Grammar.Program
import Lox.Machine.Execute
import Lox.Scope.Binding
import Lox.Source.Scan

/-!
# Sessions

A session runs one source text after another on one machine, so that each sees the global names of
those before it. The text has to be free of lexical and grammar errors before its names are bound,
and its names have to be bound without error before it runs.
-/

namespace Lox

structure Session where
  machine : Machine

/-- How a source text fared. -/
inductive Verdict where
  | success
  | failure (reason : Failure)
  /-- The steps were used up. -/
  | unfinished
  deriving DecidableEq

def Failure.report (f : Failure) : String :=
  String.join (f.diagnostics.map (· ++ "\n"))

/-- The statements of a source text, ready to run in a session with the given global names. -/
def compile (globals : List String) (source : String) : Except Failure (List Stmt) :=
  let scan := Scan.ofSource source
  match Grammar.parse scan.tokens with
  | .error fault => .error (.internal fault.message)
  | .ok reading =>
    let errors := scan.errors.map SyntaxError.lexical ++ reading.errors.map SyntaxError.grammar
    if errors.isEmpty then
      let bound := Bound.ofStatements globals reading.statements
      if bound.errors.isEmpty then .ok bound.statements else .error (.binding bound.errors)
    else
      .error (.syntactic errors)

namespace Session

def start (output : Output) (reading : Nat → Float) : Session :=
  { machine := Machine.initial output reading }

def execute (steps : Nat) (statements : List Stmt) (s : Session) : Verdict × Session :=
  match Stmt.runProgram steps statements s.machine with
  | .done () m => (.success, { s with machine := m })
  | .failed error m => (.failure (.runtime error), { s with machine := m })
  | .unfinished => (.unfinished, s)

def run (steps : Nat) (source : String) (s : Session) : Verdict × Session :=
  match compile s.machine.globalNames source with
  | .ok statements => s.execute steps statements
  | .error reason => (.failure reason, s)

def takeOutput (s : Session) : String × Session :=
  let (text, output) := s.machine.output.take
  (text, { s with machine := { s.machine with output := output } })

def write (text : String) (s : Session) : Session :=
  { s with machine := { s.machine with output := s.machine.output.write text } }

end Session

end Lox
