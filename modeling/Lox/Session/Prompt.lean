import Lox.Session.Basic
import Lox.Text.Blank

/-!
# The prompt

The prompt runs one line after another in one session. A line that is no text is reported and
skipped, errors are reported, and the session goes on until there are no more lines.
-/

namespace Lox.Prompt

def mark : String := "> "

def farewell : String := "\nExited rlox repl\n"

def unreadable : String := "Failed read line: stream did not contain valid UTF-8\n"

def lineEnd : UInt8 := 10

/-- The lines of an input, each with the line end it has. -/
def lines : List UInt8 → List (List UInt8)
  | [] => []
  | byte :: rest =>
    if byte = lineEnd then
      [byte] :: lines rest
    else
      match lines rest with
      | [] => [[byte]]
      | line :: more => (byte :: line) :: more

def report : Verdict → String
  | .failure (.internal message) => message ++ "\n"
  | .failure reason => reason.report
  | .success | .unfinished => ""

def answer (steps : Nat) (line : List UInt8) (s : Session) : String × Session :=
  match String.fromUTF8? ⟨line.toArray⟩ with
  | some text =>
    let (verdict, s) := s.run steps (Text.trimEnd text)
    (report verdict, s)
  | none => (unreadable, s)

def ask (s : Session) : Session :=
  s.write mark

/-- What happens with a line that was read after the mark. A line without even an end is the end of
the input, and the last turn. -/
def turn (steps : Nat) (line : List UInt8) (s : Session) : Option String × Session :=
  if line.isEmpty then
    (none, s.write farewell)
  else
    let (report, s) := answer steps line s
    (some report, s)

def answerAll (steps : Nat) : List (List UInt8) → Session → String × Session
  | [], s => ("", (turn steps [] (ask s)).2)
  | line :: rest, s =>
    match turn steps line (ask s) with
    | (some report, s) =>
      let (reports, s) := answerAll steps rest s
      (report ++ reports, s)
    | (none, s) => ("", s)

end Lox.Prompt
