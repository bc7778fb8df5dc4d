import Std.Time.DateTime.Timestamp
import Lox.CommandLine

/-!
# The program

Everything that touches the outside world: arguments, files, the two streams and the time. What to
do with them is decided elsewhere.
-/

namespace Lox.Main

/-- More steps than a run takes before the stack is used up. -/
def steps : Nat := 0x4000000000000000

/-- Seconds since the start of 1970, a little more with each reading. -/
def clock : IO (Nat → Float) := do
  let now ← Std.Time.Timestamp.now
  let seconds := Float.ofInt now.toSecondsSinceUnixEpoch.val
  return fun k => seconds + k.toFloat * 0.000001

def readSource (path : String) : IO (Except ReadFault String) := do
  try
    match String.fromUTF8? (← IO.FS.readBinFile path) with
    | some text => return .ok text
    | none => return .error .notText
  catch
    | .noFileOrDirectory .. => return .error .notFound
    | _ => return .error .isDirectory

def emit (t : Transcript) : IO UInt32 := do
  let out ← IO.getStdout
  out.putStr t.output
  out.flush
  IO.eprint t.errors
  return t.exitCode.toUInt32

def flush (s : Session) : IO Session := do
  let (text, s) := s.takeOutput
  let out ← IO.getStdout
  out.putStr text
  out.flush
  return s

/-- The bytes of a line and of its end, none at the end of the input. -/
partial def readLine (input : IO.FS.Stream) (line : Array UInt8) : IO (List UInt8) := do
  match (← input.read 1).toList with
  | [] => return line.toList
  | byte :: _ =>
    let line := line.push byte
    if byte = Prompt.lineEnd then return line.toList else readLine input line

partial def prompt (input : IO.FS.Stream) (s : Session) : IO Unit := do
  let s ← flush (Prompt.ask s)
  let (report, s) := Prompt.turn steps (← readLine input #[]) s
  let s ← flush s
  if let some report := report then
    IO.eprint report
    prompt input s

end Lox.Main

open Lox in
def main (arguments : List String) : IO UInt32 := do
  match Command.ofArguments arguments with
  | .ok (.file path) =>
    Main.emit (.ofFile Main.steps (← Main.clock) path (← Main.readSource path))
  | .ok .repl =>
    Main.prompt (← IO.getStdin) (Session.start (.buffer "") (← Main.clock))
    return 0
  | .error e => Main.emit (.ofUsage e)
