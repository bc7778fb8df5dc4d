import Lox.Diagnostic.Static
import Lox.Scope.Basic

/-!
# Binding names to scopes

`bind` writes into each use of a name how many scopes out it is declared; `bindingErrors` lists the
misuses of names and of `return`, in the order of the program. Both walk the same scopes: a block
and a function body are one scope each.
-/

namespace Lox

mutual

def Expr.bind (s : Scopes) : Expr → Expr
  | .literal value => .literal value
  | .grouping inner => .grouping (inner.bind s)
  | .unary operator operand => .unary operator (operand.bind s)
  | .binary left operator right => .binary (left.bind s) operator (right.bind s)
  | .logical left operator right => .logical (left.bind s) operator (right.bind s)
  | .variable name _ => .variable name (s.distance name.lexeme)
  | .assign name value _ => .assign name (value.bind s) (s.distance name.lexeme)
  | .call callee paren arguments => .call (callee.bind s) paren (Expr.bindList s arguments)

def Expr.bindList (s : Scopes) : List Expr → List Expr
  | [] => []
  | e :: rest => e.bind s :: Expr.bindList s rest

end

mutual

def Stmt.bind (s : Scopes) : Stmt → Stmt
  | .expression value => .expression (value.bind s)
  | .print value => .print (value.bind s)
  | .variable name initializer =>
    .variable name (initializer.map (Expr.bind (s.declare name.lexeme)))
  | .block body => .block (Stmt.bindList s.enter body)
  | .branch condition consequent none => .branch (condition.bind s) (consequent.bind s) none
  | .branch condition consequent (some alternative) =>
    .branch (condition.bind s) (consequent.bind s) (some (alternative.bind s))
  | .loop condition body => .loop (condition.bind s) (body.bind s)
  | .function name parameters body =>
    .function name parameters
      (Stmt.bindList ((s.introduce name.lexeme).inside parameters) body)
  | .return keyword value => .return keyword (value.map (Expr.bind s))

/-- Each statement sees the names that those before it declare. -/
def Stmt.bindList (s : Scopes) : List Stmt → List Stmt
  | [] => []
  | first :: rest => first.bind s :: Stmt.bindList (s.after first) rest

end

/-- A second declaration of a name in one local scope is an error. -/
def Scopes.redeclared (s : Scopes) (name : Token) : List BindingError :=
  if !s.locals.isEmpty && s.innermost.declares name.lexeme then
    [BindingError.at name .alreadyDeclared]
  else
    []

def Scopes.parameterErrors (s : Scopes) : List Token → List BindingError
  | [] => []
  | p :: rest => s.redeclared p ++ (s.introduce p.lexeme).parameterErrors rest

/-- Reading a name in its own initializer is an error. -/
def Scopes.readErrors (s : Scopes) (name : Token) : List BindingError :=
  if s.innermost.awaits name.lexeme then
    [BindingError.at name
      (if s.locals.isEmpty then .readGlobalInOwnInitializer else .readInOwnInitializer)]
  else
    []

mutual

def Expr.bindingErrors (s : Scopes) : Expr → List BindingError
  | .literal _ => []
  | .grouping inner => inner.bindingErrors s
  | .unary _ operand => operand.bindingErrors s
  | .binary left _ right => left.bindingErrors s ++ right.bindingErrors s
  | .logical left _ right => left.bindingErrors s ++ right.bindingErrors s
  | .variable name _ => s.readErrors name
  | .assign _ value _ => value.bindingErrors s
  | .call callee _ arguments => callee.bindingErrors s ++ Expr.listBindingErrors s arguments

def Expr.listBindingErrors (s : Scopes) : List Expr → List BindingError
  | [] => []
  | e :: rest => e.bindingErrors s ++ Expr.listBindingErrors s rest

end

def Scopes.optionalErrors (s : Scopes) : Option Expr → List BindingError
  | some e => e.bindingErrors s
  | none => []

mutual

def Stmt.bindingErrors (s : Scopes) (inFunction : Bool) : Stmt → List BindingError
  | .expression value => value.bindingErrors s
  | .print value => value.bindingErrors s
  | .variable name initializer =>
    s.redeclared name ++ (s.declare name.lexeme).optionalErrors initializer
  | .block body => Stmt.listBindingErrors s.enter inFunction body
  | .branch condition consequent none =>
    condition.bindingErrors s ++ consequent.bindingErrors s inFunction
  | .branch condition consequent (some alternative) =>
    condition.bindingErrors s ++ consequent.bindingErrors s inFunction
      ++ alternative.bindingErrors s inFunction
  | .loop condition body => condition.bindingErrors s ++ body.bindingErrors s inFunction
  | .function name parameters body =>
    s.redeclared name ++ (s.introduce name.lexeme).enter.parameterErrors parameters
      ++ Stmt.listBindingErrors ((s.introduce name.lexeme).inside parameters) true body
  | .return keyword value =>
    (if inFunction then [] else [BindingError.at keyword .returnOutsideFunction])
      ++ s.optionalErrors value

def Stmt.listBindingErrors (s : Scopes) (inFunction : Bool) : List Stmt → List BindingError
  | [] => []
  | first :: rest =>
    first.bindingErrors s inFunction ++ Stmt.listBindingErrors (s.after first) inFunction rest

end

/-- A program with its names bound, and the errors found on the way. -/
structure Bound where
  statements : List Stmt
  errors : List BindingError
  deriving Repr

def Bound.ofStatements (globals : List String) (statements : List Stmt) : Bound :=
  let s := Scopes.topLevel globals
  { statements := Stmt.bindList s statements
    errors := Stmt.listBindingErrors s false statements }

end Lox
