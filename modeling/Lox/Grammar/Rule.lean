import Lox.Diagnostic.Static
import Lox.Text.Quoted

/-!
# Grammar rules

A rule reads a value off the front of a list of tokens. It may note errors and go on, get stuck at
an error, or find that the list is no list of tokens of a source text at all. A rule that gets stuck
still says where, so that reading can go on from there.
-/

namespace Lox.Grammar

def literalDetail : Option Literal → String
  | none => "None"
  | some (.number value) => "Some(Number(" ++ Decimal.Layout.detailed.write value ++ "))"
  | some (.string text) => "Some(String(" ++ Text.quoted text ++ "))"

/-- What makes a list of tokens unreadable. The tokens of a source text have no such fault. -/
inductive Fault where
  /-- The list ends without an end token. -/
  | missingEnd
  /-- A literal token does not carry the value its kind asks for. -/
  | notLiteral (token : Token)
  /-- The steps allotted to the reading are used up. -/
  | outOfSteps
  deriving Repr, DecidableEq

def Fault.message : Fault → String
  | .missingEnd => "Token stream is missing its Eof"
  | .notLiteral t =>
    "Cannot convert " ++ t.kind.name ++ " token (" ++ literalDetail t.literal
      ++ ") to a literal expression"
  | .outOfSteps => "Unexpected end of token stream"

/-- An error and its position, given by the number of tokens from the offending one up to the end
token; it is zero at the end token itself. -/
structure Finding where
  error : GrammarError
  left : Nat
  deriving Repr, DecidableEq

/-- The answer of a rule: the tokens after the value or at the error, and the errors on the way, in
order. The error that a rule is stuck at is the last of them. -/
inductive Reply (α : Type) where
  | read (value : α) (rest : List Token) (findings : List Finding)
  | stuck (rest : List Token) (findings : List Finding)
  | broken (fault : Fault)

def Reply.after {α : Type} (earlier : List Finding) : Reply α → Reply α
  | .read value rest findings => .read value rest (earlier ++ findings)
  | .stuck rest findings => .stuck rest (earlier ++ findings)
  | .broken fault => .broken fault

/-- The number of tokens before the end token. -/
def beforeEnd (tokens : List Token) : Nat :=
  (tokens.takeWhile (·.kind ≠ .eof)).length

@[simp]
theorem Reply.after_nil {α : Type} (r : Reply α) : r.after [] = r := by
  cases r <;> rfl

/-- A part of the grammar, as the function that reads it. -/
def Rule (α : Type) : Type :=
  List Token → Reply α

namespace Rule

@[inline]
def pure {α : Type} (value : α) : Rule α :=
  fun tokens => .read value tokens []

@[inline]
def bind {α β : Type} (rule : Rule α) (next : α → Rule β) : Rule β :=
  fun tokens => match rule tokens with
    | .read value rest findings => (next value rest).after findings
    | .stuck rest findings => .stuck rest findings
    | .broken fault => .broken fault

instance : Monad Rule where
  pure := Rule.pure
  bind := Rule.bind

theorem bind_apply {α β : Type} (rule : Rule α) (next : α → Rule β) (tokens : List Token) :
    (rule >>= next) tokens = match rule tokens with
      | .read value rest findings => (next value rest).after findings
      | .stuck rest findings => .stuck rest findings
      | .broken fault => .broken fault :=
  rfl

def fail {α : Type} (fault : Fault) : Rule α :=
  fun _ => .broken fault

def peek : Rule Token
  | [] => .broken .missingEnd
  | t :: rest => .read t (t :: rest) []

/-- Takes the current token. The end token is never taken. -/
def advance : Rule Token
  | [] => .broken .missingEnd
  | t :: rest => .read t (if t.kind = .eof then t :: rest else rest) []

def check (kind : Kind) : Rule Bool := do
  return decide ((← peek).kind = kind)

def finding (cause : GrammarCause) : Rule Finding
  | [] => .broken .missingEnd
  | t :: rest =>
    .read { error := GrammarError.at t cause, left := beforeEnd (t :: rest) } (t :: rest) []

def note (f : Finding) : Rule Unit :=
  fun tokens => .read () tokens [f]

def noteHere (cause : GrammarCause) : Rule Unit := do
  note (← finding cause)

def stuck {α : Type} (cause : GrammarCause) : Rule α := do
  let f ← finding cause
  fun tokens => .stuck tokens [f]

/-- Notes an error at the current token, if it is one, and goes on. -/
def noteHereIf (wrong : Bool) (cause : GrammarCause) : Rule Unit :=
  if wrong then noteHere cause else Pure.pure ()

/-- Reads by a rule, unless a token of the kind stands in its place. -/
def unlessAt {α : Type} (kind : Kind) (absent : α) (rule : Rule α) : Rule α := do
  if ← check kind then return absent else rule

def following {α : Type} (kind : Kind) (rule : Rule α) : Rule (Option α) := do
  if ← check kind then
    let _ ← advance
    return some (← rule)
  else
    return none

def expect (kind : Kind) (what : String) : Rule Token := do
  if ← check kind then advance else stuck (.expected what)

end Rule

end Lox.Grammar
