import Lox.Token.Basic

/-!
# Errors found before a program runs

A lexical error has a line; an error of the grammar or of the names also says at which token it
was found. The wording of each cause stands in one place, its `message`.
-/

namespace Lox

/-- Where an error was found: at the end of the tokens, or at the token with this lexeme. -/
inductive Place where
  | atEnd
  | atLexeme (lexeme : String)
  deriving Repr, DecidableEq

def Place.of (t : Token) : Place :=
  if t.kind = .eof then .atEnd else .atLexeme t.lexeme

def Place.text : Place → String
  | .atEnd => " at end"
  | .atLexeme lexeme => " at '" ++ lexeme ++ "'"

def staticText (line : Nat) (place message : String) : String :=
  "[line " ++ toString line ++ "] error" ++ place ++ ": " ++ message

inductive LexicalCause where
  | openComment
  | strayCharacter (c : Char)
  | openString
  deriving Repr, DecidableEq

def LexicalCause.message : LexicalCause → String
  | .openComment => "Unterminated block comment."
  | .strayCharacter c => "Unexpected character '" ++ c.toString ++ "'."
  | .openString => "Unterminated string."

structure LexicalError where
  line : Nat
  cause : LexicalCause
  deriving Repr, DecidableEq

def LexicalError.text (e : LexicalError) : String :=
  staticText e.line "" e.cause.message

inductive GrammarCause where
  | expectedExpression
  /-- A token is missing; `what` names it and its place in the grammar. -/
  | expected (what : String)
  | invalidTarget
  | tooManyArguments
  | tooManyParameters
  deriving Repr, DecidableEq

def GrammarCause.message : GrammarCause → String
  | .expectedExpression => "Expect expression."
  | .expected what => "Expect " ++ what ++ "."
  | .invalidTarget => "Invalid assignment target."
  | .tooManyArguments => "Can't have more than 255 arguments."
  | .tooManyParameters => "Can't have more than 255 parameters."

structure GrammarError where
  line : Nat
  place : Place
  cause : GrammarCause
  deriving Repr, DecidableEq

def GrammarError.text (e : GrammarError) : String :=
  staticText e.line e.place.text e.cause.message

def GrammarError.at (t : Token) (cause : GrammarCause) : GrammarError :=
  { line := t.line, place := Place.of t, cause := cause }

inductive SyntaxError where
  | lexical (e : LexicalError)
  | grammar (e : GrammarError)
  deriving Repr, DecidableEq

def SyntaxError.text : SyntaxError → String
  | .lexical e => e.text
  | .grammar e => e.text

inductive BindingCause where
  | readInOwnInitializer
  | readGlobalInOwnInitializer
  | alreadyDeclared
  | returnOutsideFunction
  deriving Repr, DecidableEq

def BindingCause.message : BindingCause → String
  | .readInOwnInitializer => "Can't read local variable in its own initializer."
  | .readGlobalInOwnInitializer => "Can't read global variable in its own initializer."
  | .alreadyDeclared => "Already a variable with this name in this scope."
  | .returnOutsideFunction => "Can't return from top-level code."

structure BindingError where
  line : Nat
  place : Place
  cause : BindingCause
  deriving Repr, DecidableEq

def BindingError.text (e : BindingError) : String :=
  staticText e.line e.place.text e.cause.message

def BindingError.at (t : Token) (cause : BindingCause) : BindingError :=
  { line := t.line, place := Place.of t, cause := cause }

end Lox
