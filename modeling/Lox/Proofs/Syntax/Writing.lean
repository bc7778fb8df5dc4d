import Mathlib.Data.List.Forall2
import Mathlib.Tactic.MkIffOfInductiveProp
import Lox.Scope.Basic

/-!
# Programs written out

`spelling` writes a tree as the grammar spells it. A mark says of a token what the tree keeps of it:
the token itself, the constant it stands for, or only its kind. `Shaped` says what a tree of the
grammar is: operands bind as tightly as the operator between them asks, assignments go to names,
declarations stand where they may, and every `else` belongs to the nearest `if` that can have it.
-/

namespace Lox

-- ---------------------------------------------------------------------------
-- Marks
-- ---------------------------------------------------------------------------

def Constant.kind : Constant → Kind
  | .nil => .kwNil
  | .boolean true => .kwTrue
  | .boolean false => .kwFalse
  | .number _ => .number
  | .string _ => .string

def Constant.literal? : Constant → Option Literal
  | .number value => some (.number value)
  | .string text => some (.string text)
  | _ => none

inductive Mark where
  /-- Any token of the kind. -/
  | any (kind : Kind)
  | constant (value : Constant)
  /-- The very token. -/
  | own (token : Token)

def Mark.kind : Mark → Kind
  | .any kind => kind
  | .constant value => value.kind
  | .own token => token.kind

/-- The tokens that a mark may stand for. -/
def Mark.Fits : Mark → Token → Prop
  | .any kind, t => t.kind = kind
  | .constant value, t => t.kind = value.kind ∧ ∀ l ∈ value.literal?, t.literal = some l
  | .own token, t => t = token

/-- Tokens that are written as the marks say, one for one. -/
abbrev Written : List Mark → List Token → Prop :=
  List.Forall₂ Mark.Fits

mutual

def Expr.spelling : Expr → List Mark
  | .literal value => [.constant value]
  | .grouping inner => .any .leftParen :: inner.spelling ++ [.any .rightParen]
  | .unary operator operand => .own operator :: operand.spelling
  | .binary left operator right => left.spelling ++ .own operator :: right.spelling
  | .logical left operator right => left.spelling ++ .own operator :: right.spelling
  | .variable name _ => [.own name]
  | .assign name value _ => .own name :: .any .equal :: value.spelling
  | .call callee paren arguments =>
    callee.spelling ++ .any .leftParen :: Expr.listSpelling arguments ++ [.own paren]

def Expr.listSpelling : List Expr → List Mark
  | [] => []
  | [last] => last.spelling
  | first :: next :: rest => first.spelling ++ .any .comma :: Expr.listSpelling (next :: rest)

end

/-- What stands between the parentheses of a function's head. -/
def parameterSpelling (parameters : List Token) : List Mark :=
  (parameters.map Mark.own).intersperse (.any .comma)

mutual

def Stmt.spelling : Stmt → List Mark
  | .expression value => value.spelling ++ [.any .semicolon]
  | .print value => .any .kwPrint :: value.spelling ++ [.any .semicolon]
  | .variable name none => [.any .kwVar, .own name, .any .semicolon]
  | .variable name (some value) =>
    .any .kwVar :: .own name :: .any .equal :: value.spelling ++ [.any .semicolon]
  | .block body => .any .leftBrace :: Stmt.listSpelling body ++ [.any .rightBrace]
  | .branch condition consequent none =>
    .any .kwIf :: .any .leftParen :: condition.spelling ++ .any .rightParen :: consequent.spelling
  | .branch condition consequent (some alternative) =>
    .any .kwIf :: .any .leftParen :: condition.spelling ++
    .any .rightParen :: consequent.spelling ++
      .any .kwElse :: alternative.spelling
  | .loop condition body =>
    .any .kwWhile :: .any .leftParen :: condition.spelling ++ .any .rightParen :: body.spelling
  | .function name parameters body =>
    .any .kwFun :: .own name :: .any .leftParen :: parameterSpelling parameters ++
      .any .rightParen :: .any .leftBrace :: Stmt.listSpelling body ++ [.any .rightBrace]
  | .return keyword none => [.own keyword, .any .semicolon]
  | .return keyword (some value) => .own keyword :: value.spelling ++ [.any .semicolon]

def Stmt.listSpelling : List Stmt → List Mark
  | [] => []
  | first :: rest => first.spelling ++ Stmt.listSpelling rest

end

-- ---------------------------------------------------------------------------
-- Shapes
-- ---------------------------------------------------------------------------

/-- How tightly an operator binds its two operands; what is no such operator has zero. -/
def Kind.precedence : Kind → Nat
  | .kwOr => 1
  | .kwAnd => 2
  | .bangEqual | .equalEqual => 3
  | .greater | .greaterEqual | .less | .lessEqual => 4
  | .minus | .plus => 5
  | .slash | .star => 6
  | _ => 0

/-- How tightly the outermost construct of an expression binds: assignments least of all, then the
operators between two operands, those before one operand, calls, and what stands alone. -/
def Expr.rank : Expr → Nat
  | .assign .. => 0
  | .binary _ operator _ | .logical _ operator _ => operator.kind.precedence
  | .unary .. => 7
  | .call .. => 8
  | .literal _ | .grouping _ | .variable .. => 9

/-- An operator between operands that bind tightly enough. Operators of one level group to the left,
so only the left operand may be of the operator's own level. -/
@[mk_iff]
structure Expr.Joined (left : Expr) (operator : Token) (right : Expr) : Prop where
  operates : 0 < operator.kind.precedence
  left : operator.kind.precedence ≤ left.rank
  right : operator.kind.precedence < right.rank

mutual

def Expr.Shaped : Expr → Prop
  | .literal _ => True
  | .grouping inner => inner.Shaped
  | .unary operator operand =>
    (operator.kind = .bang ∨ operator.kind = .minus) ∧ 7 ≤ operand.rank ∧ operand.Shaped
  | .binary left operator right =>
    2 < operator.kind.precedence ∧ left.Joined operator right ∧ left.Shaped ∧ right.Shaped
  | .logical left operator right =>
    operator.kind.precedence ≤ 2 ∧ left.Joined operator right ∧ left.Shaped ∧ right.Shaped
  | .variable name _ => name.kind = .identifier
  | .assign name value _ => name.kind = .identifier ∧ value.Shaped
  | .call callee paren arguments =>
    paren.kind = .rightParen ∧ 8 ≤ callee.rank ∧ callee.Shaped ∧ arguments.length ≤ 255 ∧
      Expr.ListShaped arguments

def Expr.ListShaped : List Expr → Prop
  | [] => True
  | first :: rest => first.Shaped ∧ Expr.ListShaped rest

end

/-- Whether a statement ends with an `if` that an `else` behind it would belong to. -/
def Stmt.endsOpen : Stmt → Bool
  | .branch _ _ none => true
  | .branch _ _ (some alternative) => alternative.endsOpen
  | .loop _ body => body.endsOpen
  | _ => false

mutual

def Stmt.Shaped : Stmt → Prop
  | .expression value | .print value => value.Shaped
  | .variable name initializer => name.kind = .identifier ∧ ∀ e ∈ initializer, e.Shaped
  | .block body => Stmt.ListShaped body
  | .branch condition consequent none =>
    condition.Shaped ∧ consequent.declared? = none ∧ consequent.Shaped
  | .branch condition consequent (some alternative) =>
    condition.Shaped ∧ (consequent.declared? = none ∧ consequent.Shaped) ∧
      consequent.endsOpen = false ∧ alternative.declared? = none ∧ alternative.Shaped
  | .loop condition body => condition.Shaped ∧ body.declared? = none ∧ body.Shaped
  | .function name parameters body =>
    name.kind = .identifier ∧ (∀ p ∈ parameters, p.kind = .identifier) ∧ parameters.length ≤ 255 ∧
      Stmt.ListShaped body
  | .return keyword value => keyword.kind = .kwReturn ∧ ∀ e ∈ value, e.Shaped

def Stmt.ListShaped : List Stmt → Prop
  | [] => True
  | first :: rest => first.Shaped ∧ Stmt.ListShaped rest

end

-- ---------------------------------------------------------------------------
-- Trees as they are read
-- ---------------------------------------------------------------------------

mutual

def Expr.unbound : Expr → Expr
  | .literal value => .literal value
  | .grouping inner => .grouping inner.unbound
  | .unary operator operand => .unary operator operand.unbound
  | .binary left operator right => .binary left.unbound operator right.unbound
  | .logical left operator right => .logical left.unbound operator right.unbound
  | .variable name _ => .variable name none
  | .assign name value _ => .assign name value.unbound none
  | .call callee paren arguments => .call callee.unbound paren (Expr.listUnbound arguments)

def Expr.listUnbound : List Expr → List Expr
  | [] => []
  | first :: rest => first.unbound :: Expr.listUnbound rest

end

mutual

def Stmt.unbound : Stmt → Stmt
  | .expression value => .expression value.unbound
  | .print value => .print value.unbound
  | .variable name initializer => .variable name (initializer.map Expr.unbound)
  | .block body => .block (Stmt.listUnbound body)
  | .branch condition consequent none => .branch condition.unbound consequent.unbound none
  | .branch condition consequent (some alternative) =>
    .branch condition.unbound consequent.unbound (some alternative.unbound)
  | .loop condition body => .loop condition.unbound body.unbound
  | .function name parameters body => .function name parameters (Stmt.listUnbound body)
  | .return keyword value => .return keyword (value.map Expr.unbound)

def Stmt.listUnbound : List Stmt → List Stmt
  | [] => []
  | first :: rest => first.unbound :: Stmt.listUnbound rest

end

-- ---------------------------------------------------------------------------
-- Written tokens
-- ---------------------------------------------------------------------------

theorem Written.split {marks more : List Mark} {tokens : List Token}
    (h : Written (marks ++ more) tokens) :
    ∃ taken left, tokens = taken ++ left ∧ Written marks taken ∧ Written more left := by
  induction marks generalizing tokens with
  | nil => exact ⟨[], tokens, rfl, .nil, h⟩
  | cons mark marks ih =>
    obtain ⟨t, rest, fits, written, rfl⟩ := List.forall₂_cons_left_iff.1 h
    obtain ⟨taken, left, rfl, first, second⟩ := ih written
    exact ⟨t :: taken, left, rfl, .cons fits first, second⟩

theorem Written.exists (marks : List Mark) : ∃ tokens, Written marks tokens := by
  induction marks with
  | nil => exact ⟨[], .nil⟩
  | cons mark marks ih =>
    obtain ⟨tokens, written⟩ := ih
    cases mark with
    | any kind => exact ⟨⟨kind, "", none, 0⟩ :: tokens, .cons rfl written⟩
    | constant value =>
      exact ⟨⟨value.kind, "", value.literal?, 0⟩ :: tokens, .cons ⟨rfl, fun _ h => h⟩ written⟩
    | own token => exact ⟨token :: tokens, .cons rfl written⟩

theorem parameterSpelling_cons (first : Token) {more : List Token} (h : more ≠ []) :
    parameterSpelling (first :: more) = .own first :: .any .comma :: parameterSpelling more := by
  obtain ⟨next, others, rfl⟩ := List.exists_cons_of_ne_nil h
  rfl

theorem Mark.Fits.kind_eq {m : Mark} {t : Token} (h : m.Fits t) : t.kind = m.kind := by
  cases m with
  | any kind => exact h
  | constant value => exact h.1
  | own token => exact congrArg Token.kind h

theorem Constant.ofToken?_eq_some {t : Token} {value : Constant} :
    Constant.ofToken? t = some value ↔ (Mark.constant value).Fits t := by
  unfold Constant.ofToken? Mark.Fits
  constructor
  · intro h
    split at h <;> cases h <;> simp_all [Constant.kind, Constant.literal?]
  · rintro ⟨hk, hl⟩
    rw [hk]
    cases value with
    | nil => rfl
    | boolean b => cases b <;> rfl
    | number x => rw [hl _ rfl]; rfl
    | string text => rw [hl _ rfl]; rfl

end Lox
