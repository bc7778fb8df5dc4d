import Mathlib.Data.Set.Function
import Lox.Proofs.Decimal.Distinct
import Lox.Proofs.Grammar.Origin
import Lox.Proofs.Source.Alone
import Lox.Proofs.Syntax.Outline
import Lox.Proofs.Syntax.Writing

/-!
# The text of an expression

The text of an expression is that of an outline, and a text has one outline only. From the outline
the expression can be read back: the head of a form tells by its kind which sort of expression it
is, with the number of parts where `-` stands for two, and words are read as tokens again. What is
lost are the lines of tokens and the depths of names.

This is said of expressions that are `Legible`: their tokens are read from a text, their strings
hold no quote, and their numbers are finite. An infinite number is written as the name `inf` is.
-/

namespace Lox

-- ---------------------------------------------------------------------------
-- Expressions without lines and depths
-- ---------------------------------------------------------------------------

def Expr.bare (e : Expr) : Expr :=
  e.unbound.relabel fun _ => 0

def Expr.listBare (es : List Expr) : List Expr :=
  Expr.relabelList (fun _ => 0) (Expr.listUnbound es)

section
variable (e left right : Expr) (es : List Expr) (t : Token) (depth : Option Nat)

@[simp] theorem Expr.bare_literal (value : Constant) : (literal value).bare = .literal value := rfl

@[simp] theorem Expr.bare_grouping : (grouping e).bare = .grouping e.bare := rfl

@[simp] theorem Expr.bare_unary : (unary t e).bare = .unary (t.relabel fun _ => 0) e.bare := rfl

@[simp] theorem Expr.bare_binary :
    (binary left t right).bare = .binary left.bare (t.relabel fun _ => 0) right.bare := rfl

@[simp] theorem Expr.bare_logical :
    (logical left t right).bare = .logical left.bare (t.relabel fun _ => 0) right.bare := rfl

@[simp] theorem Expr.bare_variable :
    (Expr.variable t depth).bare = .variable (t.relabel fun _ => 0) none := rfl

@[simp] theorem Expr.bare_assign :
    (assign t e depth).bare = .assign (t.relabel fun _ => 0) e.bare none := rfl

@[simp] theorem Expr.bare_call :
    (call e t es).bare = .call e.bare (t.relabel fun _ => 0) (listBare es) := rfl

@[simp] theorem Expr.listBare_cons : listBare (e :: es) = e.bare :: listBare es := rfl

end

mutual

@[simp]
theorem Expr.text_bare : ∀ e : Expr, e.bare.text = e.text
  | .literal _ => rfl
  | .grouping inner => by simp [Expr.text, inner.text_bare]
  | .unary _ operand => by simp [Expr.text, operand.text_bare]
  | .binary left _ right | .logical left _ right => by
    simp [Expr.text, left.text_bare, right.text_bare]
  | .variable _ _ => rfl
  | .assign _ value _ => by simp [Expr.text, value.text_bare]
  | .call callee _ arguments => by
    simp [Expr.text, callee.text_bare, Expr.listText_listBare arguments]

theorem Expr.listText_listBare :
    ∀ es : List Expr, Expr.listText (Expr.listBare es) = Expr.listText es
  | [] => rfl
  | e :: rest => by simp [Expr.listText, e.text_bare, Expr.listText_listBare rest]

end

-- ---------------------------------------------------------------------------
-- Outlines of expressions
-- ---------------------------------------------------------------------------

def Constant.outline : Constant → Outline
  | .string text => .quoted text
  | value => .word value.text

mutual

def Expr.outline : Expr → Outline
  | .literal value => value.outline
  | .grouping inner => .form "group" [inner.outline]
  | .unary operator operand => .form operator.lexeme [operand.outline]
  | .binary left operator right | .logical left operator right =>
    .form operator.lexeme [left.outline, right.outline]
  | .variable name _ => .word name.lexeme
  | .assign name value _ => .form "=" [.word name.lexeme, value.outline]
  | .call callee _ arguments => .form "call" (callee.outline :: Expr.outlines arguments)

def Expr.outlines : List Expr → List Outline
  | [] => []
  | e :: rest => e.outline :: Expr.outlines rest

end

theorem Constant.toList_text (value : Constant) : value.text.toList = value.outline.text := by
  cases value with
  | string text => simp [Constant.text, outline, Outline.text]
  | _ => rfl

mutual

theorem Expr.toList_text : ∀ e : Expr, e.text.toList = e.outline.text
  | .literal value => value.toList_text
  | .grouping inner => by
    simp [Expr.text, Expr.outline, Outline.text, Outline.listText, inner.toList_text]
  | .unary _ operand => by
    simp [Expr.text, Expr.outline, Outline.text, Outline.listText, operand.toList_text]
  | .binary left _ right | .logical left _ right => by
    simp [Expr.text, Expr.outline, Outline.text, Outline.listText, left.toList_text,
      right.toList_text]
  | .variable _ _ => rfl
  | .assign _ value _ => by
    simp [Expr.text, Expr.outline, Outline.text, Outline.listText, value.toList_text]
  | .call callee _ arguments => by
    simp [Expr.text, Expr.outline, Outline.text, Outline.listText, callee.toList_text,
      Expr.toList_listText arguments]

theorem Expr.toList_listText : ∀ es : List Expr,
    (Expr.listText es).toList = Outline.listText (Expr.outlines es)
  | [] => rfl
  | e :: rest => by
    simp [Expr.listText, Expr.outlines, Outline.listText, e.toList_text, Expr.toList_listText rest]

end

-- ---------------------------------------------------------------------------
-- Legible expressions
-- ---------------------------------------------------------------------------

def Constant.Legible : Constant → Prop
  | .number value => value.isFinite
  | .string text => '"' ∉ text.toList
  | _ => True

/-- What an expression keeps can be read in its text. -/
structure Expr.Legible (x : Expr) : Prop where
  kinded : x.Kinded
  token : ∀ t ∈ x.token?, Source.Scanned t
  constant : ∀ value ∈ x.constant?, value.Legible

namespace Source

open Outline (inWord inWord_of Word)

theorem Lexeme.all_inWord {after text : List Char} {kind : Kind} (h : Lexeme after kind text)
    (hk : kind ∉ [.string, .leftParen, .rightParen]) : text.all inWord := by
  have digits {text : List Char} (h : Digits text) : text.all inWord :=
    List.all_eq_true.2 fun c hc => inWord_of (p := Char.isDigit) rfl (h.2 c hc)
  cases h.spelling with
  | fixed hf =>
    have table : ∀ entry ∈ fixedLexemes,
        entry.1 ∈ [.string, .leftParen, .rightParen] ∨ entry.2.all inWord := by decide
    exact (table _ hf).resolve_left hk
  | string => exact absurd List.mem_cons_self hk
  | number numeral =>
    rcases numeral with whole | ⟨_, _, rfl, whole, fraction⟩
    · exact digits whole
    · rw [List.all_append, List.all_cons, digits whole, digits fraction]
      rfl
  | name hc hm =>
    refine List.all_eq_true.2 (List.forall_mem_cons.2 ⟨?_, fun c hc => ?_⟩)
    · exact inWord_of (p := startsWord) rfl hc
    · exact inWord_of (p := continuesWord) rfl (hm c hc)

theorem Scanned.word {t : Token} (h : Scanned t)
    (hk : t.kind ∉ [.string, .leftParen, .rightParen]) : Word t.lexeme := by
  obtain ⟨after, lexeme⟩ := h.lexeme
  exact ⟨Piece.Munched.text_ne_nil (p := .lexeme t.kind t.lexeme.toList) lexeme,
    lexeme.all_inWord hk⟩

end Source

theorem Expr.Legible.word {x : Expr} (h : x.Legible) {t : Token} (ht : t ∈ x.token?)
    (hx : ∀ callee paren arguments, x ≠ .call callee paren arguments) : Outline.Word t.lexeme := by
  refine (h.token t ht).word ?_
  have kinded := h.kinded
  cases x with
  | literal | grouping => cases ht
  | unary | logical =>
    cases ht
    rcases kinded with kind | kind <;> simp [kind]
  | binary =>
    cases ht
    have table : ∀ kind ∈ Kind.binaryOperators, kind ∉ [.string, .leftParen, .rightParen] := by
      decide
    exact table _ kinded
  | «variable» | assign =>
    cases ht
    have kind : t.kind = .identifier := kinded
    simp [kind]
  | call => exact absurd rfl (hx _ _ _)

theorem Constant.clear_outline {value : Constant} (h : value.Legible) : value.outline.Clear := by
  cases value with
  | nil => exact .word ⟨by decide, by decide⟩
  | boolean value => cases value <;> exact .word ⟨by decide, by decide⟩
  | number value =>
    obtain ⟨chars, c, first, -⟩ := Decimal.write_chars h
    refine .word ⟨fun empty => ?_, List.all_eq_true.2 fun d hd => ?_⟩
    · rw [Constant.text] at empty
      rw [empty] at first
      cases first
    · rcases chars d hd with digit | rfl | rfl
      · exact Outline.inWord_of (p := Char.isDigit) rfl digit
      · decide
      · decide
  | string text => exact .quoted h

mutual

theorem Expr.clear_outline : ∀ e : Expr, (∀ x ∈ e.nodes, x.Legible) → e.outline.Clear
  | .literal value, h => Constant.clear_outline ((h _ (mem_nodes_self _)).constant value rfl)
  | .grouping inner, h => by
    obtain ⟨-, hi⟩ := List.forall_mem_cons.1 h
    exact .form ⟨by decide, by decide⟩ (by simpa using inner.clear_outline hi)
  | .unary operator operand, h => by
    obtain ⟨own, ho⟩ := List.forall_mem_cons.1 h
    exact .form (own.word rfl (by simp)) (by simpa using operand.clear_outline ho)
  | .binary left operator right, h | .logical left operator right, h => by
    obtain ⟨own, inner⟩ := List.forall_mem_cons.1 h
    obtain ⟨hl, hr⟩ := List.forall_mem_append.1 inner
    exact .form (own.word rfl (by simp))
      (by simpa using ⟨left.clear_outline hl, right.clear_outline hr⟩)
  | .variable name _, h => .word ((h _ (mem_nodes_self _)).word rfl (by simp))
  | .assign name value _, h => by
    obtain ⟨own, hv⟩ := List.forall_mem_cons.1 h
    exact .form ⟨by decide, by decide⟩
      (by simpa using ⟨.word (own.word rfl (by simp)), value.clear_outline hv⟩)
  | .call callee _ arguments, h => by
    obtain ⟨-, inner⟩ := List.forall_mem_cons.1 h
    obtain ⟨hc, ha⟩ := List.forall_mem_append.1 inner
    exact .form ⟨by decide, by decide⟩
      (List.forall_mem_cons.2 ⟨callee.clear_outline hc, Expr.clear_outlines arguments ha⟩)

theorem Expr.clear_outlines : ∀ es : List Expr, (∀ x ∈ Expr.listNodes es, x.Legible) →
    ∀ o ∈ Expr.outlines es, o.Clear
  | [], _ => nofun
  | e :: rest, h => by
    obtain ⟨he, hr⟩ := List.forall_mem_append.1 h
    exact List.forall_mem_cons.2 ⟨e.clear_outline he, Expr.clear_outlines rest hr⟩

end

-- ---------------------------------------------------------------------------
-- Reading outlines
-- ---------------------------------------------------------------------------

noncomputable def Decimal.numberOf (text : String) : Float :=
  Function.invFunOn Layout.plain.write {x : Float | x.isFinite} text

theorem Decimal.numberOf_write {x : Float} (hx : x.isFinite) :
    numberOf (Layout.plain.write x) = x :=
  Set.InjOn.leftInvOn_invFunOn (fun _ hx _ hy same => write_injective hx hy same) hx

/-- The literal or the variable of a word. Words that are neither are numbers. -/
noncomputable def Expr.ofWord (text : String) : Expr :=
  match (Source.alone text).kind with
  | .kwNil => .literal .nil
  | .kwTrue => .literal (.boolean true)
  | .kwFalse => .literal (.boolean false)
  | .identifier => .variable (Source.alone text) none
  | _ => .literal (.number (Decimal.numberOf text))

/-- The expression with a head and parts. A head that is a name stands for a group or a call. -/
def Expr.ofForm (head : Token) (parts : List Expr) : Expr :=
  match head.kind, parts with
  | .equal, [.variable name _, value] => .assign name value none
  | .kwAnd, [left, right] | .kwOr, [left, right] => .logical left head right
  | .identifier, first :: rest =>
    if head.lexeme = "call" then .call first (Source.alone ")") rest else .grouping first
  | _, [left, right] => .binary left head right
  | _, operand :: _ => .unary head operand
  | _, [] => .literal .nil

section
variable {head : Token} {operand left right : Expr}

theorem Expr.ofForm_unary (h : head.kind = .bang ∨ head.kind = .minus) :
    ofForm head [operand] = .unary head operand := by
  unfold ofForm
  rcases h with kind | kind <;> rw [kind]

theorem Expr.ofForm_binary (h : head.kind ∈ Kind.binaryOperators) :
    ofForm head [left, right] = .binary left head right := by
  unfold ofForm
  revert h
  cases head.kind <;> simp [Kind.binaryOperators]

theorem Expr.ofForm_logical (h : head.kind = .kwAnd ∨ head.kind = .kwOr) :
    ofForm head [left, right] = .logical left head right := by
  unfold ofForm
  rcases h with kind | kind <;> rw [kind]

end

mutual

noncomputable def Outline.expr : Outline → Expr
  | .word text => .ofWord text
  | .quoted text => .literal (.string text)
  | .form head parts => .ofForm (Source.alone head) (Outline.exprs parts)

noncomputable def Outline.exprs : List Outline → List Expr
  | [] => []
  | first :: rest => first.expr :: Outline.exprs rest

end

namespace Source

theorem Lexeme.rightParen_text {after text : List Char} (h : Lexeme after .rightParen text) :
    text = [')'] := by
  cases h.spelling with
  | fixed hf =>
    have table : ∀ entry ∈ fixedLexemes, entry.1 = .rightParen → entry.2 = [')'] := by decide
    exact table _ hf rfl

theorem Scanned.rightParen {t : Token} (h : Scanned t) (hk : t.kind = .rightParen) :
    alone ")" = t.relabel fun _ => 0 := by
  obtain ⟨after, lexeme⟩ := h.lexeme
  rw [hk] at lexeme
  have text : t.lexeme = ")" := String.toList_inj.1 lexeme.rightParen_text
  rw [← h.alone_lexeme, text]

theorem kind_alone_write {x : Float} (hx : x.isFinite) :
    (alone (Decimal.Layout.plain.write x)).kind = .number ∨
      (alone (Decimal.Layout.plain.write x)).kind = .minus := by
  obtain ⟨-, c, first, start⟩ := Decimal.write_chars hx
  obtain ⟨rest, text⟩ := List.head?_eq_some_iff.1 first
  have whole : Decimal.Layout.plain.write x = String.ofList (c :: rest) := by
    rw [← text, String.ofList_toList]
  rw [whole]
  rcases start with digit | rfl
  · left
    have number : ∃ text after, numberPiece c rest = (.lexeme .number text, after) := by
      unfold numberPiece
      repeat' split
      all_goals exact ⟨_, _, rfl⟩
    obtain ⟨text, after, piece⟩ := number
    rw [alone_of_cut ((cut_digit digit rest).trans piece)]
  · right
    have minus : (cut 1 '-' rest).parts = (.lexeme .minus ['-'], rest) := rfl
    rw [alone_of_cut minus]

end Source

theorem Constant.expr_outline {value : Constant} (h : value.Legible) :
    value.outline.expr = .literal value := by
  cases value with
  | nil =>
    have word : (Source.alone "nil").kind = .kwNil := by decide +kernel
    simp [outline, text, Outline.expr, Expr.ofWord, word]
  | boolean value =>
    have yes : (Source.alone "true").kind = .kwTrue := by decide +kernel
    have no : (Source.alone "false").kind = .kwFalse := by decide +kernel
    cases value <;> simp [outline, text, Outline.expr, Expr.ofWord, yes, no]
  | number value =>
    have same := Decimal.numberOf_write h
    rcases Source.kind_alone_write h with word | word <;>
      simp [outline, text, Outline.expr, Expr.ofWord, word, same]
  | string text => rfl

mutual

theorem Expr.expr_outline : ∀ e : Expr, (∀ x ∈ e.nodes, x.Legible) → e.outline.expr = e.bare
  | .literal value, h => Constant.expr_outline ((h _ (mem_nodes_self _)).constant value rfl)
  | .grouping inner, h => by
    obtain ⟨-, hi⟩ := List.forall_mem_cons.1 h
    have head : Source.alone "group" = ⟨.identifier, "group", none, 0⟩ := by decide +kernel
    simp [Expr.outline, Outline.expr, Outline.exprs, Expr.ofForm, head, inner.expr_outline hi]
  | .unary operator operand, h => by
    obtain ⟨own, ho⟩ := List.forall_mem_cons.1 h
    simp only [Expr.outline, Outline.expr, Outline.exprs, operand.expr_outline ho,
      (own.token operator rfl).alone_lexeme]
    exact Expr.ofForm_unary own.kinded
  | .binary left operator right, h => by
    obtain ⟨own, inner⟩ := List.forall_mem_cons.1 h
    obtain ⟨hl, hr⟩ := List.forall_mem_append.1 inner
    simp only [Expr.outline, Outline.expr, Outline.exprs, left.expr_outline hl,
      right.expr_outline hr, (own.token operator rfl).alone_lexeme]
    exact Expr.ofForm_binary own.kinded
  | .logical left operator right, h => by
    obtain ⟨own, inner⟩ := List.forall_mem_cons.1 h
    obtain ⟨hl, hr⟩ := List.forall_mem_append.1 inner
    simp only [Expr.outline, Outline.expr, Outline.exprs, left.expr_outline hl,
      right.expr_outline hr, (own.token operator rfl).alone_lexeme]
    exact Expr.ofForm_logical own.kinded
  | .variable name _, h => by
    have own := h _ (mem_nodes_self _)
    have kind : name.kind = .identifier := own.kinded
    simp [Expr.outline, Outline.expr, Expr.ofWord, (own.token name rfl).alone_lexeme, kind]
  | .assign name value _, h => by
    obtain ⟨own, hv⟩ := List.forall_mem_cons.1 h
    have kind : name.kind = .identifier := own.kinded
    have head : (Source.alone "=").kind = .equal := by decide +kernel
    simp [Expr.outline, Outline.expr, Outline.exprs, Expr.ofForm, Expr.ofWord, head, kind,
      (own.token name rfl).alone_lexeme, value.expr_outline hv]
  | .call callee paren arguments, h => by
    obtain ⟨own, inner⟩ := List.forall_mem_cons.1 h
    obtain ⟨hc, ha⟩ := List.forall_mem_append.1 inner
    have head : Source.alone "call" = ⟨.identifier, "call", none, 0⟩ := by decide +kernel
    simp [Expr.outline, Outline.expr, Outline.exprs, Expr.ofForm, head,
      (own.token paren rfl).rightParen own.kinded, callee.expr_outline hc,
      Expr.exprs_outlines arguments ha]

theorem Expr.exprs_outlines : ∀ es : List Expr, (∀ x ∈ Expr.listNodes es, x.Legible) →
    Outline.exprs (Expr.outlines es) = Expr.listBare es
  | [], _ => rfl
  | e :: rest, h => by
    obtain ⟨he, hr⟩ := List.forall_mem_append.1 h
    simp [Expr.outlines, Outline.exprs, e.expr_outline he, Expr.exprs_outlines rest hr]

end

/-- Legible expressions have one text exactly if they differ in lines and depths only. -/
theorem Expr.text_eq_iff {e f : Expr} (he : ∀ x ∈ e.nodes, x.Legible)
    (hf : ∀ x ∈ f.nodes, x.Legible) : e.text = f.text ↔ e.bare = f.bare := by
  constructor
  · intro h
    have texts : e.outline.text = f.outline.text := by rw [← e.toList_text, h, f.toList_text]
    have outlines : e.outline = f.outline :=
      Outline.text_inj (e.clear_outline he) (f.clear_outline hf) texts
    rw [← e.expr_outline he, outlines, f.expr_outline hf]
  · intro h
    rw [← e.text_bare, h, f.text_bare]

/-- An infinite number and a name can have one text. -/
example : (Expr.literal (.number (1.0 / 0.0))).text =
    (Expr.variable ⟨.identifier, "inf", none, 1⟩ none).text := by decide +kernel

end Lox
