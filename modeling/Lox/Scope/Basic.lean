import Lox.Syntax.Tree

/-!
# Scopes

The names that are declared around a place in a program, scope by scope. A name is *ready* once its
initializer lies behind; between declaration and definition it is declared and not ready. Top-level
names have a table of their own, because they are found by name and not by distance.
-/

namespace Lox

/-- The names declared in one scope, each with whether it is ready; the latest entry counts. -/
abbrev Scope := List (String × Bool)

namespace Scope

def declares (scope : Scope) (name : String) : Bool :=
  (scope.lookup name).isSome

/-- Whether the name is declared and its initializer is not yet behind. -/
def awaits (scope : Scope) (name : String) : Bool :=
  scope.lookup name == some false

def mark (scope : Scope) (name : String) (ready : Bool) : Scope :=
  (name, ready) :: scope

end Scope

/-- The scopes around a place: the local ones, innermost first, and the table of globals. -/
structure Scopes where
  globals : Scope
  locals : List Scope
  deriving Repr, DecidableEq

namespace Scopes

def topLevel (names : List String) : Scopes :=
  { globals := names.map fun name => (name, true), locals := [] }

def innermost (s : Scopes) : Scope :=
  s.locals.headD s.globals

/-- How many scopes out the nearest local declaration of a name is. -/
def distance (s : Scopes) (name : String) : Option Nat :=
  s.locals.findIdx? (·.declares name)

def enter (s : Scopes) : Scopes :=
  { s with locals := [] :: s.locals }

def mark (s : Scopes) (name : String) (ready : Bool) : Scopes :=
  match s.locals with
  | [] => { s with globals := s.globals.mark name ready }
  | scope :: outer => { s with locals := scope.mark name ready :: outer }

/-- Declares a name that is not ready. A global that is known already stays as it is. -/
def declare (s : Scopes) (name : String) : Scopes :=
  if s.locals.isEmpty && s.globals.declares name then s else s.mark name false

def define (s : Scopes) (name : String) : Scopes :=
  s.mark name true

def introduce (s : Scopes) (name : String) : Scopes :=
  (s.declare name).define name

end Scopes

/-- The name that a statement declares in the scope it stands in. -/
def Stmt.declared? : Stmt → Option Token
  | .variable name _ => some name
  | .function name _ _ => some name
  | _ => none

def Scopes.after (s : Scopes) (statement : Stmt) : Scopes :=
  match statement.declared? with
  | some name => s.introduce name.lexeme
  | none => s

def Scopes.inside (s : Scopes) (parameters : List Token) : Scopes :=
  parameters.foldl (fun s p => s.introduce p.lexeme) s.enter

end Lox
