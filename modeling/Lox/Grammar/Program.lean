import Lox.Grammar.Statement

/-!
# The grammar of programs

A program is a list of declarations up to the end token. After an error in a declaration, tokens are
skipped up to where the next statement is likely to start, and reading goes on there; so one reading
finds all independent errors.
-/

namespace Lox.Grammar

/-- Skips tokens after one of the kind `previous`: up to the end token, behind a semicolon, or up to
a keyword that starts a statement. -/
def skip (previous : Kind) : List Token → Except Fault (List Token)
  | [] => .error .missingEnd
  | t :: rest =>
    if t.kind = .eof || previous = .semicolon || t.kind.startsStatement then
      .ok (t :: rest)
    else
      skip t.kind rest

/-- Skips at least one token, the end token apart. -/
def synchronize : List Token → Except Fault (List Token)
  | [] => .error .missingEnd
  | t :: rest => if t.kind = .eof then .ok (t :: rest) else skip t.kind rest

/-- The statements that could be read and the errors of the others. -/
structure Reading where
  statements : List Stmt
  findings : List Finding
  deriving Repr

def Reading.empty : Reading :=
  { statements := [], findings := [] }

def Reading.cons (statement : Option Stmt) (findings : List Finding) (r : Reading) : Reading :=
  { statements := statement.toList ++ r.statements, findings := findings ++ r.findings }

def Reading.errors (r : Reading) : List GrammarError :=
  r.findings.map Finding.error

def program : Nat → List Token → Except Fault Reading
  | 0, _ => .error .outOfSteps
  | _ + 1, [] => .error .missingEnd
  | n + 1, t :: rest =>
    if t.kind = .eof then
      .ok Reading.empty
    else
      match declaration n (t :: rest) with
      | .read statement after findings =>
        (program n after).map (Reading.cons (some statement) findings)
      | .stuck at' findings =>
        match synchronize at' with
        | .ok after => (program n after).map (Reading.cons none findings)
        | .error fault => .error fault
      | .broken fault => .error fault

/-- Enough steps for any list of so many tokens: no rule goes through more than twenty others
without taking a token. -/
def steps (count : Nat) : Nat :=
  20 * (count + 1)

def parse (tokens : List Token) : Except Fault Reading :=
  program (steps tokens.length) tokens

end Lox.Grammar
