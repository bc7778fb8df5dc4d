import Lox.Session.File
import Lox.Session.Prompt

/-!
# The command line

`file <path>` runs a file and `repl` starts the prompt. `Transcript` is what a whole invocation
leaves behind: its exit code and what it wrote to its two streams.
-/

namespace Lox

inductive Command where
  | file (path : String)
  | repl
  deriving Repr, DecidableEq

inductive UsageError where
  | help
  | invalid
  deriving Repr, DecidableEq

def UsageError.exitCode : UsageError → Nat
  | .help => 0
  | .invalid => 64

def usage : String :=
  "Usage: lox <COMMAND>\n\n"
    ++ "Commands:\n"
    ++ "  file <PATH>  Run a Lox script and exit: 65 on a static error, 70 on a runtime error\n"
    ++ "  repl         Read and run one line at a time, keeping globals between lines\n\n"
    ++ "Options:\n"
    ++ "  -h, --help   Print this text\n"

namespace Command

def asksForHelp (argument : String) : Bool :=
  argument = "--help" || argument = "-h"

/-- Whether an argument is an option rather than a path; a lone dash is a path. -/
def isOption (argument : String) : Bool :=
  argument.startsWith "-" && argument ≠ "-"

def endOfOptions : String := "--"

/-- What may follow a complete command: nothing but a call for help or the end of the options. -/
def complete (command : Command) : List String → Except UsageError Command
  | [] => .ok command
  | argument :: rest =>
    if argument = endOfOptions && rest.isEmpty then .ok command
    else .error (if asksForHelp argument then .help else .invalid)

def ofPath : List String → Except UsageError Command
  | [] => .error .invalid
  | path :: rest =>
    if path = endOfOptions then
      match rest with
      | [path] => .ok (.file path)
      | _ => .error .invalid
    else if asksForHelp path then
      .error .help
    else if isOption path then
      .error .invalid
    else
      complete (.file path) rest

def ofName : List String → Except UsageError Command
  | "repl" :: rest => complete .repl rest
  | "file" :: rest => ofPath rest
  | _ => .error .invalid

/-- The command that arguments name; they are read from left to right. The end of the options may be
marked in front of the name: what stands there is then a name, and the command has options still. -/
def ofArguments : List String → Except UsageError Command
  | [] => .error .invalid
  | argument :: rest =>
    if argument = endOfOptions then
      ofName rest
    else if asksForHelp argument then
      .error .help
    else
      ofName (argument :: rest)

end Command

/-- What an invocation leaves behind. -/
structure Transcript where
  exitCode : Nat
  output : String
  errors : String
  deriving Repr, DecidableEq

namespace Transcript

def ofUsage : UsageError → Transcript
  | .help => { exitCode := UsageError.help.exitCode, output := usage, errors := "" }
  | .invalid => { exitCode := UsageError.invalid.exitCode, output := "", errors := usage }

def ofFile (steps : Nat) (reading : Nat → Float) (path : String)
    (source : Except ReadFault String) : Transcript :=
  let s := Session.start (.console "") reading
  let (verdict, s) := s.runSource steps path source
  let written := s.machine.output.text
  match verdict with
  | .success | .unfinished => { exitCode := 0, output := written, errors := "" }
  | .failure (.internal message) =>
    { exitCode := (Failure.internal message).exitCode, output := written
      errors := "Failed run file: " ++ message ++ "\n" }
  | .failure reason =>
    { exitCode := reason.exitCode, output := written, errors := reason.report }

def ofPrompt (steps : Nat) (reading : Nat → Float) (input : List UInt8) : Transcript :=
  let s := Session.start (.console "") reading
  let (errors, s) := Prompt.answerAll steps (Prompt.lines input) s
  { exitCode := 0, output := s.machine.output.text, errors := errors }

def ofArguments (steps : Nat) (reading : Nat → Float) (d : Directory) (input : List UInt8)
    (arguments : List String) : Transcript :=
  match Command.ofArguments arguments with
  | .ok (.file path) => ofFile steps reading path (d.source path)
  | .ok .repl => ofPrompt steps reading input
  | .error e => ofUsage e

end Transcript

end Lox
