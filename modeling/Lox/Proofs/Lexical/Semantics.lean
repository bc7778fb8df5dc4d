import Lox.Session.Basic

/-!
# Lexical scoping by storage cells

A second account of how programs run, in which names are never searched for in frames. Around every
place of a program there is an environment, which maps the local names in scope to storage cells and
is never changed: a declaration extends it for what follows in the same block, and a function keeps
the one of its declaration. Only cells change. A name that has no cell is a global one and is found
by name. The depths that a tree carries are not looked at.
-/

namespace Lox.Lexical

/-- The cells of the local names in scope; the first entry of a name counts. -/
abbrev Environment := List (String × Nat)

structure Store where
  /-- A cell is empty from its allocation until its declaration is executed. -/
  cells : List (Option (Value Environment))
  globals : Bindings Environment
  output : Output
  /-- No function has this identity or a larger one. -/
  nextIdentity : Nat
  clock : Clock

namespace Store

def content (s : Store) (cell : Nat) : Option (Value Environment) :=
  s.cells[cell]?.join

def write (s : Store) (cell : Nat) (value : Value Environment) : Store :=
  { s with cells := s.cells.set cell (some value) }

def defineGlobal (s : Store) (name : String) (value : Value Environment) : Store :=
  { s with globals := s.globals.insert name value }

end Store

def Run (α : Type) : Type :=
  Store → Outcome α Store

namespace Run

variable {α β : Type}

def pure (value : α) : Run α :=
  fun s => .done value s

def bind (first : Run α) (next : α → Run β) : Run β :=
  fun s => match first s with
    | .done value s => next value s
    | .failed error s => .failed error s
    | .unfinished => .unfinished

instance : Monad Run where
  pure := Run.pure
  bind := Run.bind

theorem bind_apply (first : Run α) (next : α → Run β) (s : Store) :
    (first >>= next) s = match first s with
      | .done value s => next value s
      | .failed error s => .failed error s
      | .unfinished => .unfinished :=
  rfl

def unfinished : Run α :=
  fun _ => .unfinished

def fail (line : Nat) (cause : RuntimeCause) : Run α :=
  fun s => .failed { line := line, cause := cause } s

def check (line : Nat) : Except RuntimeCause (Value Environment) → Run (Value Environment)
  | .ok value => fun s => .done value s
  | .error cause => fail line cause

def printLine (line : String) : Run Unit :=
  fun s => .done () { s with output := s.output.printLine line }

/-- The environment with a fresh, empty cell for a name. -/
def declare (env : Environment) (name : String) : Run Environment :=
  fun s => .done ((name, s.cells.length) :: env) { s with cells := s.cells ++ [none] }

/-- The environment in which a statement of a block and what follows it there run. -/
def declareFor (env : Environment) (t : Stmt) : Run Environment :=
  match t.declared? with
  | some name => declare env name.lexeme
  | none => Pure.pure env

/-- Fills the cell of a name. A name without a cell is bound as a global one. -/
def define (env : Environment) (name : String) (value : Value Environment) : Run Unit :=
  fun s => match env.lookup name with
    | some cell => .done () (s.write cell value)
    | none => .done () (s.defineGlobal name value)

def read (env : Environment) (name : Token) : Run (Value Environment) :=
  fun s =>
    let found := match env.lookup name.lexeme with
      | some cell => s.content cell
      | none => s.globals.lookup name.lexeme
    match found with
    | some value => .done value s
    | none => .failed (RuntimeError.undefined name) s

/-- Fills the cell of a name. A global name has to be bound already. -/
def assign (env : Environment) (name : Token) (value : Value Environment) : Run Unit :=
  fun s => match env.lookup name.lexeme with
    | some cell => .done () (s.write cell value)
    | none =>
      match s.globals.lookup name.lexeme with
      | some _ => .done () (s.defineGlobal name.lexeme value)
      | none => .failed (RuntimeError.undefined name) s

def makeClosure (env : Environment) (function : Function) : Run (Value Environment) :=
  fun s =>
    let callable := { identity := s.nextIdentity, callee := .closure function env }
    .done (.callable callable) { s with nextIdentity := s.nextIdentity + 1 }

def readClock : Run (Value Environment) :=
  fun s =>
    .done (.number (s.clock.reading s.clock.taken))
      { s with clock := { s.clock with taken := s.clock.taken + 1 } }

/-- The environment with a fresh cell for each parameter, which holds its argument. -/
def bindParameters (env : Environment) : List (Token × Value Environment) → Run Environment
  | [] => Pure.pure env
  | (parameter, argument) :: rest => do
    let env ← declare env parameter.lexeme
    define env parameter.lexeme argument
    bindParameters env rest

end Run

mutual

def evaluate : Nat → Environment → Expr → Run (Value Environment)
  | 0, _, _ => Run.unfinished
  | _ + 1, _, .literal value => pure (Value.ofConstant value)
  | n + 1, env, .grouping inner => evaluate n env inner
  | n + 1, env, .unary operator operand => do
    let value ← evaluate n env operand
    Run.check operator.line (Value.unary operator.kind value)
  | n + 1, env, .binary left operator right => do
    let a ← evaluate n env left
    let b ← evaluate n env right
    Run.check operator.line (Value.binary operator.kind a b)
  | n + 1, env, .logical left operator right => do
    let value ← evaluate n env left
    match operator.kind with
    | .kwOr => if value.truthy then pure value else evaluate n env right
    | .kwAnd => if value.truthy then evaluate n env right else pure value
    | other => Run.fail operator.line (.invalidOperator other.name)
  | _ + 1, env, .variable name _ => Run.read env name
  | n + 1, env, .assign name value _ => do
    let value ← evaluate n env value
    Run.assign env name value
    pure value
  | n + 1, env, .call callee paren arguments => do
    let callee ← evaluate n env callee
    let arguments ← evaluateList n env arguments
    match callee with
    | .callable function =>
      if arguments.length = function.arity then
        call n function arguments
      else
        Run.fail paren.line (.arityMismatch function.arity arguments.length)
    | _ => Run.fail paren.line .notCallable

def evaluateList : Nat → Environment → List Expr → Run (List (Value Environment))
  | 0, _, _ => Run.unfinished
  | _ + 1, _, [] => pure []
  | n + 1, env, e :: rest => do
    let value ← evaluate n env e
    let values ← evaluateList n env rest
    pure (value :: values)

/-- The value of a call. The body runs in the environment of the declaration and the parameters. -/
def call : Nat → Callable Environment → List (Value Environment) → Run (Value Environment)
  | 0, _, _ => Run.unfinished
  | n + 1, callable, arguments =>
    match callable.callee with
    | .clock => Run.readClock
    | .closure function captured => do
      let env ← Run.bindParameters captured (function.parameters.zip arguments)
      let completion ← executeList n env function.body
      pure completion.value

def execute : Nat → Environment → Stmt → Run (Completion Environment)
  | 0, _, _ => Run.unfinished
  | n + 1, env, .expression value => do
    let _ ← evaluate n env value
    pure .normal
  | n + 1, env, .print value => do
    let value ← evaluate n env value
    Run.printLine value.text
    pure .normal
  | _ + 1, env, .variable name none => do
    Run.define env name.lexeme .nil
    pure .normal
  | n + 1, env, .variable name (some initializer) => do
    let value ← evaluate n env initializer
    Run.define env name.lexeme value
    pure .normal
  | n + 1, env, .block body => executeList n env body
  | n + 1, env, .branch condition consequent alternative => do
    let value ← evaluate n env condition
    if value.truthy then
      execute n env consequent
    else
      match alternative with
      | some alternative => execute n env alternative
      | none => pure .normal
  | n + 1, env, .loop condition body => do
    let value ← evaluate n env condition
    if value.truthy then
      match ← execute n env body with
      | .normal => execute n env (.loop condition body)
      | .returned value => pure (.returned value)
    else
      pure .normal
  | _ + 1, env, .function name parameters body => do
    let value ← Run.makeClosure env { name := name, parameters := parameters, body := body }
    Run.define env name.lexeme value
    pure .normal
  | _ + 1, _, .return _ none => pure (.returned .nil)
  | n + 1, env, .return _ (some value) => do
    let value ← evaluate n env value
    pure (.returned value)

/-- Executes the statements of a block. What one of them declares is in scope in itself and in those
after it. -/
def executeList : Nat → Environment → List Stmt → Run (Completion Environment)
  | 0, _, _ => Run.unfinished
  | _ + 1, _, [] => pure .normal
  | n + 1, env, first :: rest => do
    let env ← Run.declareFor env first
    match ← execute n env first with
    | .normal => executeList n env rest
    | .returned value => pure (.returned value)

end

/-- Executes the statements of a program. At top level no name has a cell. -/
def runProgram (n : Nat) : List Stmt → Run Unit
  | [] => pure ()
  | first :: rest => do
    let _ ← execute n [] first
    runProgram n rest

-- ---------------------------------------------------------------------------
-- Sessions
-- ---------------------------------------------------------------------------

namespace Store

def initial (output : Output) (reading : Nat → Float) : Store :=
  { cells := []
    globals := [("clock", .callable { identity := 0, callee := .clock })]
    output := output
    nextIdentity := 1
    clock := { reading := reading, taken := 0 } }

def globalNames (s : Store) : List String :=
  s.globals.map Prod.fst

def execute (steps : Nat) (statements : List Stmt) (s : Store) : Verdict × Store :=
  match runProgram steps statements s with
  | .done () s => (.success, s)
  | .failed error s => (.failure (.runtime error), s)
  | .unfinished => (.unfinished, s)

def run (steps : Nat) (source : String) (s : Store) : Verdict × Store :=
  match compile s.globalNames source with
  | .ok statements => s.execute steps statements
  | .error reason => (.failure reason, s)

def takeOutput (s : Store) : String × Store :=
  let (text, output) := s.output.take
  (text, { s with output := output })

def writeOutput (text : String) (s : Store) : Store :=
  { s with output := s.output.write text }

end Store

/-- A session and a store that have gone through the same requests. -/
inductive Alongside : Session → Store → Prop
  | start (output : Output) (reading : Nat → Float) :
    Alongside (.start output reading) (.initial output reading)
  | run {s r} (steps : Nat) (source : String) :
    Alongside s r → Alongside (s.run steps source).2 (r.run steps source).2
  | takeOutput {s r} : Alongside s r → Alongside s.takeOutput.2 r.takeOutput.2
  | write {s r} (text : String) : Alongside s r → Alongside (s.write text) (r.writeOutput text)

end Lox.Lexical
