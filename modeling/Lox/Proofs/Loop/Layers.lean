import Mathlib.Data.List.Forall2
import Lox.Proofs.Machine.Fitting

/-!
# Trees across spare scopes

A part of a program can stand in scopes that another place does not have. If nothing is declared in
those scopes, the part means the same there: bound in the one place and in the other, it gets other
distances, which lead to the same scopes, and nothing else changes (`SameStmt.bind`).
-/

namespace Lox.Loop

/-- A scope around two places: they have it both, or it is a spare one of the left or of the right
place. -/
inductive Layer where
  | shared
  | left
  | right
  deriving Repr, DecidableEq

/-- The scopes around two places from the inside out, up to those that are the same for both. -/
abbrev Layers := List Layer

/-- Whether declarations may stand here. -/
def Open : Layers → Prop
  | .left :: _ | .right :: _ => False
  | _ => True

def Plain (σ : Layers) : Prop :=
  ∀ layer ∈ σ, layer = .shared

/-- Two distances that lead to the same scope, which is no spare one. -/
inductive Across : Layers → Nat → Nat → Prop
  | outside (d : Nat) : Across [] d d
  | here (σ : Layers) : Across (.shared :: σ) 0 0
  | shared {σ d d'} : Across σ d d' → Across (.shared :: σ) (d + 1) (d' + 1)
  | left {σ d d'} : Across σ d d' → Across (.left :: σ) (d + 1) d'
  | right {σ d d'} : Across σ d d' → Across (.right :: σ) d (d' + 1)

/-- The scopes of two places: nothing is declared in the spare ones. -/
inductive Facing : Layers → List Scope → List Scope → Prop
  | outside (scopes : List Scope) : Facing [] scopes scopes
  | shared {σ outer outer'} (scope : Scope) :
    Facing σ outer outer' → Facing (.shared :: σ) (scope :: outer) (scope :: outer')
  | left {σ outer outer'} : Facing σ outer outer' → Facing (.left :: σ) ([] :: outer) outer'
  | right {σ outer outer'} : Facing σ outer outer' → Facing (.right :: σ) outer ([] :: outer')

section
variable {σ : Layers} {scopes scopes' : List Scope}

theorem Plain.open (h : Plain σ) : Open σ := by
  cases σ with
  | nil => trivial
  | cons layer σ =>
    obtain rfl := h layer (List.mem_cons_self ..)
    trivial

theorem Plain.shared (h : Plain σ) : Plain (.shared :: σ) :=
  List.forall_mem_cons.2 ⟨rfl, h⟩

theorem Across.refl (h : Plain σ) (d : Nat) : Across σ d d := by
  induction σ generalizing d with
  | nil => exact .outside d
  | cons layer σ ih =>
    obtain ⟨rfl, rest⟩ := List.forall_mem_cons.1 h
    cases d with
    | zero => exact .here σ
    | succ d => exact .shared (ih rest d)

theorem findIdx?_spare (outer : List Scope) (name : String) :
    List.findIdx? (Scope.declares · name) ([] :: outer) =
      (outer.findIdx? (Scope.declares · name)).map (· + 1) :=
  List.findIdx?_cons

theorem Facing.distance (h : Facing σ scopes scopes') (name : String) :
    Option.Rel (Across σ) (scopes.findIdx? (·.declares name))
      (scopes'.findIdx? (·.declares name)) := by
  induction h with
  | outside scopes =>
    cases scopes.findIdx? (·.declares name) with
    | none => exact .none
    | some d => exact .some (.outside d)
  | @shared σ outer outer' scope _ ih =>
    rw [List.findIdx?_cons, List.findIdx?_cons]
    split
    · exact .some (.here σ)
    · revert ih
      generalize outer.findIdx? (·.declares name) = d
      generalize outer'.findIdx? (·.declares name) = d'
      rintro (across | -)
      · exact .some (.shared across)
      · exact .none
  | @left σ outer outer' _ ih =>
    rw [findIdx?_spare]
    revert ih
    generalize outer.findIdx? (·.declares name) = d
    generalize outer'.findIdx? (·.declares name) = d'
    rintro (across | -)
    · exact .some (.left across)
    · exact .none
  | @right σ outer outer' _ ih =>
    rw [findIdx?_spare]
    revert ih
    generalize outer.findIdx? (·.declares name) = d
    generalize outer'.findIdx? (·.declares name) = d'
    rintro (across | -)
    · exact .some (.right across)
    · exact .none

theorem Facing.modifyHead (h : Facing σ scopes scopes') (ho : Open σ) (f : Scope → Scope) :
    Facing σ (scopes.modifyHead f) (scopes'.modifyHead f) := by
  cases h with
  | outside scopes => exact .outside _
  | shared scope outer => exact .shared (f scope) outer
  | left | right => exact ho.elim

end

-- ---------------------------------------------------------------------------
-- Trees
-- ---------------------------------------------------------------------------

inductive SameExpr (σ : Layers) : Expr → Expr → Prop
  | literal (value : Constant) : SameExpr σ (.literal value) (.literal value)
  | grouping {e e'} : SameExpr σ e e' → SameExpr σ (.grouping e) (.grouping e')
  | unary {e e'} (operator : Token) :
    SameExpr σ e e' → SameExpr σ (.unary operator e) (.unary operator e')
  | binary {a a' b b'} (operator : Token) :
    SameExpr σ a a' → SameExpr σ b b' → SameExpr σ (.binary a operator b) (.binary a' operator b')
  | logical {a a' b b'} (operator : Token) :
    SameExpr σ a a' → SameExpr σ b b' → SameExpr σ (.logical a operator b) (.logical a' operator b')
  | variable {d d'} (name : Token) :
    Option.Rel (Across σ) d d' → SameExpr σ (.variable name d) (.variable name d')
  | assign {e e' d d'} (name : Token) :
    SameExpr σ e e' → Option.Rel (Across σ) d d' →
    SameExpr σ (.assign name e d) (.assign name e' d')
  | call {e e' es es'} (paren : Token) :
    SameExpr σ e e' → List.Forall₂ (SameExpr σ) es es' →
    SameExpr σ (.call e paren es) (.call e' paren es')

mutual

/-- The same statement in two places. What declares a name in the innermost scope stands in none
that is spare. -/
inductive SameStmt : Layers → Stmt → Stmt → Prop
  | expression {σ e e'} : SameExpr σ e e' → SameStmt σ (.expression e) (.expression e')
  | print {σ e e'} : SameExpr σ e e' → SameStmt σ (.print e) (.print e')
  | variable {σ e e'} (name : Token) :
    Open σ → Option.Rel (SameExpr σ) e e' → SameStmt σ (.variable name e) (.variable name e')
  | block {σ ts ts'} : SameStmts (.shared :: σ) ts ts' → SameStmt σ (.block ts) (.block ts')
  | branch {σ e e' t t'} :
    SameExpr σ e e' → SameStmt σ t t' → SameStmt σ (.branch e t none) (.branch e' t' none)
  | branchElse {σ e e' t t' u u'} :
    SameExpr σ e e' → SameStmt σ t t' → SameStmt σ u u' →
    SameStmt σ (.branch e t (some u)) (.branch e' t' (some u'))
  | loop {σ e e' t t'} : SameExpr σ e e' → SameStmt σ t t' → SameStmt σ (.loop e t) (.loop e' t')
  | function {σ ts ts'} (name : Token) (parameters : List Token) :
    Open σ → SameStmts (.shared :: σ) ts ts' →
    SameStmt σ (.function name parameters ts) (.function name parameters ts')
  | return {σ e e'} (keyword : Token) :
    Option.Rel (SameExpr σ) e e' → SameStmt σ (.return keyword e) (.return keyword e')

inductive SameStmts : Layers → List Stmt → List Stmt → Prop
  | nil {σ} : SameStmts σ [] []
  | cons {σ t t' ts ts'} : SameStmt σ t t' → SameStmts σ ts ts' → SameStmts σ (t :: ts) (t' :: ts')

end

-- ---------------------------------------------------------------------------
-- Trees without spare scopes around them
-- ---------------------------------------------------------------------------

section
variable {σ : Layers}

theorem Plain.sameDepth (h : Plain σ) (d : Option Nat) : Option.Rel (Across σ) d d := by
  cases d with
  | none => exact .none
  | some d => exact .some (.refl h d)

mutual

theorem SameExpr.refl (h : Plain σ) : ∀ e : Expr, SameExpr σ e e
  | .literal value => .literal value
  | .grouping inner => .grouping (SameExpr.refl h inner)
  | .unary operator operand => .unary operator (SameExpr.refl h operand)
  | .binary left operator right => .binary operator (SameExpr.refl h left) (SameExpr.refl h right)
  | .logical left operator right => .logical operator (SameExpr.refl h left) (SameExpr.refl h right)
  | .variable name depth => .variable name (h.sameDepth depth)
  | .assign name value depth => .assign name (SameExpr.refl h value) (h.sameDepth depth)
  | .call callee paren arguments =>
    .call paren (SameExpr.refl h callee) (SameExpr.refl_list h arguments)

theorem SameExpr.refl_list (h : Plain σ) : ∀ es : List Expr, List.Forall₂ (SameExpr σ) es es
  | [] => .nil
  | e :: rest => .cons (SameExpr.refl h e) (SameExpr.refl_list h rest)

end

theorem SameExpr.refl_option (h : Plain σ) (e : Option Expr) : Option.Rel (SameExpr σ) e e := by
  cases e with
  | none => exact .none
  | some e => exact .some (.refl h e)

end

mutual

theorem SameStmt.refl {σ : Layers} (h : Plain σ) : ∀ t : Stmt, SameStmt σ t t
  | .expression value => .expression (.refl h value)
  | .print value => .print (.refl h value)
  | .variable name initializer => .variable name h.open (SameExpr.refl_option h initializer)
  | .block body => .block (SameStmts.refl h.shared body)
  | .branch condition consequent none => .branch (.refl h condition) (SameStmt.refl h consequent)
  | .branch condition consequent (some alternative) =>
    .branchElse (.refl h condition) (SameStmt.refl h consequent) (SameStmt.refl h alternative)
  | .loop condition body => .loop (.refl h condition) (SameStmt.refl h body)
  | .function name parameters body =>
    .function name parameters h.open (SameStmts.refl h.shared body)
  | .return keyword value => .return keyword (SameExpr.refl_option h value)

theorem SameStmts.refl {σ : Layers} (h : Plain σ) : ∀ ts : List Stmt, SameStmts σ ts ts
  | [] => .nil
  | first :: rest => .cons (SameStmt.refl h first) (SameStmts.refl h rest)

end

-- ---------------------------------------------------------------------------
-- Trees bound in two places
-- ---------------------------------------------------------------------------

section
variable {σ : Layers} {s s' : Scopes}

mutual

theorem SameExpr.bind (h : Facing σ s.locals s'.locals) :
    ∀ e : Expr, SameExpr σ (e.bind s) (e.bind s')
  | .literal value => .literal value
  | .grouping inner => .grouping (SameExpr.bind h inner)
  | .unary operator operand => .unary operator (SameExpr.bind h operand)
  | .binary left operator right => .binary operator (SameExpr.bind h left) (SameExpr.bind h right)
  | .logical left operator right => .logical operator (SameExpr.bind h left) (SameExpr.bind h right)
  | .variable name _ => .variable name (h.distance name.lexeme)
  | .assign name value _ => .assign name (SameExpr.bind h value) (h.distance name.lexeme)
  | .call callee paren arguments =>
    .call paren (SameExpr.bind h callee) (SameExpr.bind_list h arguments)

theorem SameExpr.bind_list (h : Facing σ s.locals s'.locals) :
    ∀ es : List Expr, List.Forall₂ (SameExpr σ) (Expr.bindList s es) (Expr.bindList s' es)
  | [] => .nil
  | e :: rest => .cons (SameExpr.bind h e) (SameExpr.bind_list h rest)

end

theorem SameExpr.bind_option (h : Facing σ s.locals s'.locals) (e : Option Expr) :
    Option.Rel (SameExpr σ) (e.map (Expr.bind s)) (e.map (Expr.bind s')) := by
  cases e with
  | none => exact .none
  | some e => exact .some (.bind h e)

theorem Facing.declare (h : Facing σ s.locals s'.locals) (ho : Open σ) (name : String) :
    Facing σ (s.declare name).locals (s'.declare name).locals := by
  rw [Scopes.locals_declare, Scopes.locals_declare]
  exact h.modifyHead ho _

theorem Facing.introduce (h : Facing σ s.locals s'.locals) (ho : Open σ) (name : String) :
    Facing σ (s.introduce name).locals (s'.introduce name).locals := by
  rw [Scopes.locals_introduce, Scopes.locals_introduce]
  exact h.modifyHead ho _

theorem Facing.after (h : Facing σ s.locals s'.locals) (ho : Open σ) (t : Stmt) :
    Facing σ (s.after t).locals (s'.after t).locals := by
  unfold Scopes.after
  split
  · exact h.introduce ho _
  · exact h

theorem Facing.inside (h : Facing σ s.locals s'.locals) (parameters : List Token) :
    Facing (.shared :: σ) (s.inside parameters).locals (s'.inside parameters).locals := by
  rw [Scopes.locals_inside, Scopes.locals_inside]
  exact .shared _ h

end

mutual

theorem SameStmt.bind {σ : Layers} {s s' : Scopes} (h : Facing σ s.locals s'.locals) :
    ∀ t : Stmt, t.Placed → (Open σ ∨ t.declared? = none) → SameStmt σ (t.bind s) (t.bind s')
  | .expression value, _, _ => .expression (.bind h value)
  | .print value, _, _ => .print (.bind h value)
  | .variable name initializer, _, ho => by
    have ho := ho.resolve_right nofun
    exact .variable name ho (SameExpr.bind_option (h.declare ho name.lexeme) initializer)
  | .block body, hp, _ => .block (SameStmts.bind (h.inside []) body hp trivial)
  | .branch condition consequent none, hp, _ =>
    .branch (.bind h condition) (SameStmt.bind h consequent hp.2 (.inr hp.1))
  | .branch condition consequent (some alternative), hp, _ =>
    .branchElse (.bind h condition) (SameStmt.bind h consequent hp.1.2 (.inr hp.1.1))
      (SameStmt.bind h alternative hp.2.2 (.inr hp.2.1))
  | .loop condition body, hp, _ =>
    .loop (.bind h condition) (SameStmt.bind h body hp.2 (.inr hp.1))
  | .function name parameters body, hp, ho => by
    have ho := ho.resolve_right nofun
    have inner := (h.introduce ho name.lexeme).inside parameters
    exact .function name parameters ho (SameStmts.bind inner body hp trivial)
  | .return keyword value, _, _ => .return keyword (SameExpr.bind_option h value)

theorem SameStmts.bind {σ : Layers} {s s' : Scopes} (h : Facing σ s.locals s'.locals) :
    ∀ ts : List Stmt, Stmt.ListPlaced ts → Open σ →
      SameStmts σ (Stmt.bindList s ts) (Stmt.bindList s' ts)
  | [], _, _ => .nil
  | first :: rest, hp, ho =>
    .cons (SameStmt.bind h first hp.1 (.inl ho)) (SameStmts.bind (h.after ho first) rest hp.2 ho)

end

end Lox.Loop
