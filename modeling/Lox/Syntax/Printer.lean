import Lox.Syntax.Tree

/-!
# Syntax trees as text

Expressions and statements are written with the operator or the statement's word first, in
parentheses. Strings stand in quotes and are not escaped.
-/

namespace Lox

def Constant.text : Constant → String
  | .nil => "nil"
  | .boolean true => "true"
  | .boolean false => "false"
  | .number value => Decimal.Layout.plain.write value
  | .string text => "\"" ++ text ++ "\""

mutual

def Expr.text : Expr → String
  | .literal value => value.text
  | .grouping inner => "(group " ++ inner.text ++ ")"
  | .unary operator operand => "(" ++ operator.lexeme ++ " " ++ operand.text ++ ")"
  | .binary left operator right =>
    "(" ++ operator.lexeme ++ " " ++ left.text ++ " " ++ right.text ++ ")"
  | .logical left operator right =>
    "(" ++ operator.lexeme ++ " " ++ left.text ++ " " ++ right.text ++ ")"
  | .variable name _ => name.lexeme
  | .assign name value _ => "(= " ++ name.lexeme ++ " " ++ value.text ++ ")"
  | .call callee _ arguments => "(call " ++ callee.text ++ Expr.listText arguments ++ ")"

def Expr.listText : List Expr → String
  | [] => ""
  | e :: rest => " " ++ e.text ++ Expr.listText rest

end

mutual

def Stmt.text : Stmt → String
  | .expression value => "(expr " ++ value.text ++ ")"
  | .print value => "(print " ++ value.text ++ ")"
  | .variable name none => "(var " ++ name.lexeme ++ ")"
  | .variable name (some value) => "(var " ++ name.lexeme ++ " " ++ value.text ++ ")"
  | .block body => "(block" ++ Stmt.listText body ++ ")"
  | .branch condition consequent none => "(if " ++ condition.text ++ " " ++ consequent.text ++ ")"
  | .branch condition consequent (some alternative) =>
    "(if " ++ condition.text ++ " " ++ consequent.text ++ " " ++ alternative.text ++ ")"
  | .loop condition body => "(while " ++ condition.text ++ " " ++ body.text ++ ")"
  | .function name parameters body =>
    "(fun " ++ name.lexeme ++ " (" ++ " ".intercalate (parameters.map Token.lexeme) ++ ")"
      ++ Stmt.listText body ++ ")"
  | .return _ none => "(return)"
  | .return _ (some value) => "(return " ++ value.text ++ ")"

def Stmt.listText : List Stmt → String
  | [] => ""
  | s :: rest => " " ++ s.text ++ Stmt.listText rest

end

end Lox
