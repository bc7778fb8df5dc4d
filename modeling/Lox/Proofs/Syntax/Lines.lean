import Lox.Scope.Binding

/-!
# Trees on other lines

Tokens keep the lines they stand on, and nothing but messages depends on them: a tree whose tokens
are on other lines has the same names bound to the same scopes, and its binding errors are the same
ones on those lines.
-/

namespace Lox

def Token.relabel (g : Nat → Nat) (t : Token) : Token :=
  { t with line := g t.line }

namespace Token

variable (g h : Nat → Nat) (t : Token)

@[simp]
theorem kind_relabel : (t.relabel g).kind = t.kind :=
  rfl

@[simp]
theorem lexeme_relabel : (t.relabel g).lexeme = t.lexeme :=
  rfl

@[simp]
theorem line_relabel : (t.relabel g).line = g t.line :=
  rfl

@[simp]
theorem relabel_relabel : (t.relabel g).relabel h = t.relabel (h ∘ g) :=
  rfl

end Token

mutual

def Expr.relabel (g : Nat → Nat) : Expr → Expr
  | .literal value => .literal value
  | .grouping inner => .grouping (inner.relabel g)
  | .unary operator operand => .unary (operator.relabel g) (operand.relabel g)
  | .binary left operator right =>
    .binary (left.relabel g) (operator.relabel g) (right.relabel g)
  | .logical left operator right =>
    .logical (left.relabel g) (operator.relabel g) (right.relabel g)
  | .variable name depth => .variable (name.relabel g) depth
  | .assign name value depth => .assign (name.relabel g) (value.relabel g) depth
  | .call callee paren arguments =>
    .call (callee.relabel g) (paren.relabel g) (Expr.relabelList g arguments)

def Expr.relabelList (g : Nat → Nat) : List Expr → List Expr
  | [] => []
  | e :: rest => e.relabel g :: Expr.relabelList g rest

end

mutual

def Stmt.relabel (g : Nat → Nat) : Stmt → Stmt
  | .expression value => .expression (value.relabel g)
  | .print value => .print (value.relabel g)
  | .variable name initializer => .variable (name.relabel g) (initializer.map (Expr.relabel g))
  | .block body => .block (Stmt.relabelList g body)
  | .branch condition consequent none => .branch (condition.relabel g) (consequent.relabel g) none
  | .branch condition consequent (some alternative) =>
    .branch (condition.relabel g) (consequent.relabel g) (some (alternative.relabel g))
  | .loop condition body => .loop (condition.relabel g) (body.relabel g)
  | .function name parameters body =>
    .function (name.relabel g) (parameters.map (Token.relabel g)) (Stmt.relabelList g body)
  | .return keyword value => .return (keyword.relabel g) (value.map (Expr.relabel g))

def Stmt.relabelList (g : Nat → Nat) : List Stmt → List Stmt
  | [] => []
  | first :: rest => first.relabel g :: Stmt.relabelList g rest

end

theorem Stmt.relabelList_append (g : Nat → Nat) (before after : List Stmt) :
    Stmt.relabelList g (before ++ after) =
    Stmt.relabelList g before ++ Stmt.relabelList g after := by
  induction before with
  | nil => rfl
  | cons first rest ih => exact congrArg _ ih

-- ---------------------------------------------------------------------------
-- One line after another
-- ---------------------------------------------------------------------------

mutual

theorem Expr.relabel_relabel (g h : Nat → Nat) :
    ∀ e : Expr, (e.relabel g).relabel h = e.relabel (h ∘ g)
  | .literal _ => rfl
  | .grouping inner => congrArg _ (inner.relabel_relabel g h)
  | .unary _ operand => congrArg _ (operand.relabel_relabel g h)
  | .binary left _ right => by
    simp [Expr.relabel, left.relabel_relabel g h, right.relabel_relabel g h]
  | .logical left _ right => by
    simp [Expr.relabel, left.relabel_relabel g h, right.relabel_relabel g h]
  | .variable _ _ => rfl
  | .assign _ value _ => by simp [Expr.relabel, value.relabel_relabel g h]
  | .call callee _ arguments => by
    simp [Expr.relabel, callee.relabel_relabel g h, Expr.relabelList_relabelList g h arguments]

theorem Expr.relabelList_relabelList (g h : Nat → Nat) :
    ∀ es : List Expr, Expr.relabelList h (Expr.relabelList g es) = Expr.relabelList (h ∘ g) es
  | [] => rfl
  | e :: rest => by
    simp [Expr.relabelList, e.relabel_relabel g h, Expr.relabelList_relabelList g h rest]

end

mutual

theorem Stmt.relabel_relabel (g h : Nat → Nat) :
    ∀ t : Stmt, (t.relabel g).relabel h = t.relabel (h ∘ g)
  | .expression value | .print value => congrArg _ (value.relabel_relabel g h)
  | .variable _ initializer => by
    simp [Stmt.relabel, Function.comp_def, Expr.relabel_relabel]
  | .block body => congrArg _ (Stmt.relabelList_relabelList g h body)
  | .branch condition consequent none => by
    simp [Stmt.relabel, condition.relabel_relabel g h, consequent.relabel_relabel g h]
  | .branch condition consequent (some alternative) => by
    simp [Stmt.relabel, condition.relabel_relabel g h, consequent.relabel_relabel g h,
      alternative.relabel_relabel g h]
  | .loop condition body => by
    simp [Stmt.relabel, condition.relabel_relabel g h, body.relabel_relabel g h]
  | .function _ _ body => by
    simp [Stmt.relabel, Function.comp_def, Stmt.relabelList_relabelList g h body]
  | .return _ value => by
    simp [Stmt.relabel, Function.comp_def, Expr.relabel_relabel]

theorem Stmt.relabelList_relabelList (g h : Nat → Nat) :
    ∀ ts : List Stmt, Stmt.relabelList h (Stmt.relabelList g ts) = Stmt.relabelList (h ∘ g) ts
  | [] => rfl
  | first :: rest => by
    simp [Stmt.relabelList, first.relabel_relabel g h, Stmt.relabelList_relabelList g h rest]

end

-- ---------------------------------------------------------------------------
-- The same lines
-- ---------------------------------------------------------------------------

mutual

theorem Expr.relabel_id : ∀ e : Expr, e.relabel id = e
  | .literal _ => rfl
  | .grouping inner => congrArg _ inner.relabel_id
  | .unary _ operand => congrArg _ operand.relabel_id
  | .binary left _ right | .logical left _ right => by
    rw [Expr.relabel, left.relabel_id, right.relabel_id]
    rfl
  | .variable _ _ => rfl
  | .assign _ value _ => by
    rw [Expr.relabel, value.relabel_id]
    rfl
  | .call callee _ arguments => by
    rw [Expr.relabel, callee.relabel_id, Expr.relabelList_id arguments]
    rfl

theorem Expr.relabelList_id : ∀ es : List Expr, Expr.relabelList id es = es
  | [] => rfl
  | e :: rest => by rw [Expr.relabelList, e.relabel_id, Expr.relabelList_id rest]

end

theorem Token.map_relabel_id (ts : List Token) : ts.map (Token.relabel id) = ts :=
  List.map_id' ts

theorem Expr.option_map_relabel_id (e : Option Expr) : e.map (Expr.relabel id) = e := by
  cases e with
  | none => rfl
  | some e => exact congrArg some e.relabel_id

mutual

theorem Stmt.relabel_id : ∀ t : Stmt, t.relabel id = t
  | .expression value | .print value => congrArg _ value.relabel_id
  | .variable _ initializer => congrArg _ (Expr.option_map_relabel_id initializer)
  | .block body => congrArg _ (Stmt.relabelList_id body)
  | .branch condition consequent none => by
    rw [Stmt.relabel, condition.relabel_id, consequent.relabel_id]
  | .branch condition consequent (some alternative) => by
    rw [Stmt.relabel, condition.relabel_id, consequent.relabel_id, alternative.relabel_id]
  | .loop condition body => by rw [Stmt.relabel, condition.relabel_id, body.relabel_id]
  | .function _ parameters body => by
    rw [Stmt.relabel, Token.map_relabel_id, Stmt.relabelList_id body]
    rfl
  | .return _ value => congrArg _ (Expr.option_map_relabel_id value)

theorem Stmt.relabelList_id : ∀ ts : List Stmt, Stmt.relabelList id ts = ts
  | [] => rfl
  | first :: rest => by rw [Stmt.relabelList, first.relabel_id, Stmt.relabelList_id rest]

end

theorem Stmt.option_map_relabel_id (t : Option Stmt) : t.map (Stmt.relabel id) = t := by
  cases t with
  | none => rfl
  | some t => exact congrArg some t.relabel_id

-- ---------------------------------------------------------------------------
-- Names
-- ---------------------------------------------------------------------------

@[simp]
theorem Stmt.declared?_relabel (g : Nat → Nat) (t : Stmt) :
    (t.relabel g).declared? = t.declared?.map (Token.relabel g) := by
  fun_cases Stmt.relabel g t <;> rfl

theorem Scopes.after_relabel (s : Scopes) (g : Nat → Nat) (t : Stmt) :
    s.after (t.relabel g) = s.after t := by
  unfold after
  rw [Stmt.declared?_relabel]
  cases t.declared? <;> rfl

theorem Scopes.inside_relabel (s : Scopes) (g : Nat → Nat) (parameters : List Token) :
    s.inside (parameters.map (Token.relabel g)) = s.inside parameters := by
  unfold inside
  rw [List.foldl_map]
  rfl

mutual

theorem Expr.bind_relabel (s : Scopes) (g : Nat → Nat) :
    ∀ e : Expr, (e.relabel g).bind s = (e.bind s).relabel g
  | .literal _ => rfl
  | .grouping inner => congrArg _ (inner.bind_relabel s g)
  | .unary _ operand => congrArg _ (operand.bind_relabel s g)
  | .binary left _ right => by
    simp [Expr.relabel, Expr.bind, left.bind_relabel s g, right.bind_relabel s g]
  | .logical left _ right => by
    simp [Expr.relabel, Expr.bind, left.bind_relabel s g, right.bind_relabel s g]
  | .variable _ _ => rfl
  | .assign _ value _ => by simp [Expr.relabel, Expr.bind, value.bind_relabel s g]
  | .call callee _ arguments => by
    simp [Expr.relabel, Expr.bind, callee.bind_relabel s g, Expr.bindList_relabelList s g arguments]

theorem Expr.bindList_relabelList (s : Scopes) (g : Nat → Nat) :
    ∀ es : List Expr, Expr.bindList s (Expr.relabelList g es) =
    Expr.relabelList g (Expr.bindList s es)
  | [] => rfl
  | e :: rest => by
    simp [Expr.relabelList, Expr.bindList, e.bind_relabel s g, Expr.bindList_relabelList s g rest]

end

mutual

theorem Stmt.bind_relabel (s : Scopes) (g : Nat → Nat) :
    ∀ t : Stmt, (t.relabel g).bind s = (t.bind s).relabel g
  | .expression value | .print value => congrArg _ (value.bind_relabel s g)
  | .variable name initializer => by
    simp [Stmt.relabel, Stmt.bind, Function.comp_def, Expr.bind_relabel]
  | .block body => congrArg _ (Stmt.bindList_relabelList s.enter g body)
  | .branch condition consequent none => by
    simp [Stmt.relabel, Stmt.bind, condition.bind_relabel s g, consequent.bind_relabel s g]
  | .branch condition consequent (some alternative) => by
    simp [Stmt.relabel, Stmt.bind, condition.bind_relabel s g, consequent.bind_relabel s g,
      alternative.bind_relabel s g]
  | .loop condition body => by
    simp [Stmt.relabel, Stmt.bind, condition.bind_relabel s g, body.bind_relabel s g]
  | .function name parameters body => by
    simp [Stmt.relabel, Stmt.bind, Scopes.inside_relabel,
      Stmt.bindList_relabelList ((s.introduce name.lexeme).inside parameters) g body]
  | .return _ value => by
    simp [Stmt.relabel, Stmt.bind, Function.comp_def, Expr.bind_relabel]

theorem Stmt.bindList_relabelList (s : Scopes) (g : Nat → Nat) :
    ∀ ts : List Stmt, Stmt.bindList s (Stmt.relabelList g ts) =
    Stmt.relabelList g (Stmt.bindList s ts)
  | [] => rfl
  | first :: rest => by
    simp [Stmt.relabelList, Stmt.bindList, first.bind_relabel s g, Scopes.after_relabel,
      Stmt.bindList_relabelList (s.after first) g rest]

end

-- ---------------------------------------------------------------------------
-- Binding errors
-- ---------------------------------------------------------------------------

def BindingError.relabel (g : Nat → Nat) (e : BindingError) : BindingError :=
  { e with line := g e.line }

theorem BindingError.at_relabel (g : Nat → Nat) (t : Token) (cause : BindingCause) :
    BindingError.at (t.relabel g) cause = (BindingError.at t cause).relabel g :=
  rfl

namespace Scopes

variable (s : Scopes) (g : Nat → Nat)

theorem redeclared_relabel (name : Token) :
    s.redeclared (name.relabel g) = (s.redeclared name).map (BindingError.relabel g) := by
  unfold redeclared
  rw [Token.lexeme_relabel]
  split <;> rfl

theorem parameterErrors_relabel (parameters : List Token) :
    s.parameterErrors (parameters.map (Token.relabel g)) =
      (s.parameterErrors parameters).map (BindingError.relabel g) := by
  induction parameters generalizing s with
  | nil => rfl
  | cons p rest ih => simp [parameterErrors, redeclared_relabel, ih]

theorem readErrors_relabel (name : Token) :
    s.readErrors (name.relabel g) = (s.readErrors name).map (BindingError.relabel g) := by
  unfold readErrors
  rw [Token.lexeme_relabel]
  split <;> rfl

end Scopes

mutual

theorem Expr.bindingErrors_relabel (s : Scopes) (g : Nat → Nat) : ∀ e : Expr,
    (e.relabel g).bindingErrors s = (e.bindingErrors s).map (BindingError.relabel g)
  | .literal _ => rfl
  | .grouping inner => inner.bindingErrors_relabel s g
  | .unary _ operand => operand.bindingErrors_relabel s g
  | .binary left _ right => by
    simp [Expr.relabel, Expr.bindingErrors, left.bindingErrors_relabel s g,
      right.bindingErrors_relabel s g]
  | .logical left _ right => by
    simp [Expr.relabel, Expr.bindingErrors, left.bindingErrors_relabel s g,
      right.bindingErrors_relabel s g]
  | .variable name _ => s.readErrors_relabel g name
  | .assign _ value _ => value.bindingErrors_relabel s g
  | .call callee _ arguments => by
    simp [Expr.relabel, Expr.bindingErrors, callee.bindingErrors_relabel s g,
      Expr.listBindingErrors_relabelList s g arguments]

theorem Expr.listBindingErrors_relabelList (s : Scopes) (g : Nat → Nat) : ∀ es : List Expr,
    Expr.listBindingErrors s (Expr.relabelList g es) =
      (Expr.listBindingErrors s es).map (BindingError.relabel g)
  | [] => rfl
  | e :: rest => by
    simp [Expr.relabelList, Expr.listBindingErrors, e.bindingErrors_relabel s g,
      Expr.listBindingErrors_relabelList s g rest]

end

theorem Scopes.optionalErrors_relabel (s : Scopes) (g : Nat → Nat) (value : Option Expr) :
    s.optionalErrors (value.map (Expr.relabel g)) =
      (s.optionalErrors value).map (BindingError.relabel g) := by
  cases value with
  | none => rfl
  | some e => exact e.bindingErrors_relabel s g

mutual

theorem Stmt.bindingErrors_relabel (s : Scopes) (inFunction : Bool) (g : Nat → Nat) : ∀ t : Stmt,
    (t.relabel g).bindingErrors s inFunction =
      (t.bindingErrors s inFunction).map (BindingError.relabel g)
  | .expression value | .print value => value.bindingErrors_relabel s g
  | .variable name initializer => by
    simp [Stmt.relabel, Stmt.bindingErrors, Scopes.redeclared_relabel,
      Scopes.optionalErrors_relabel]
  | .block body => Stmt.listBindingErrors_relabelList s.enter inFunction g body
  | .branch condition consequent none => by
    simp [Stmt.relabel, Stmt.bindingErrors, condition.bindingErrors_relabel s g,
      consequent.bindingErrors_relabel s inFunction g]
  | .branch condition consequent (some alternative) => by
    simp [Stmt.relabel, Stmt.bindingErrors, condition.bindingErrors_relabel s g,
      consequent.bindingErrors_relabel s inFunction g,
      alternative.bindingErrors_relabel s inFunction g]
  | .loop condition body => by
    simp [Stmt.relabel, Stmt.bindingErrors, condition.bindingErrors_relabel s g,
      body.bindingErrors_relabel s inFunction g]
  | .function name parameters body => by
    simp [Stmt.relabel, Stmt.bindingErrors, Scopes.redeclared_relabel,
      Scopes.parameterErrors_relabel, Scopes.inside_relabel,
      Stmt.listBindingErrors_relabelList ((s.introduce name.lexeme).inside parameters) true g body]
  | .return keyword value => by
    cases inFunction <;>
      simp [Stmt.relabel, Stmt.bindingErrors, Scopes.optionalErrors_relabel,
        BindingError.at_relabel]

theorem Stmt.listBindingErrors_relabelList (s : Scopes) (inFunction : Bool) (g : Nat → Nat) :
    ∀ ts : List Stmt, Stmt.listBindingErrors s inFunction (Stmt.relabelList g ts) =
      (Stmt.listBindingErrors s inFunction ts).map (BindingError.relabel g)
  | [] => rfl
  | first :: rest => by
    simp [Stmt.relabelList, Stmt.listBindingErrors, first.bindingErrors_relabel s inFunction g,
      Scopes.after_relabel, Stmt.listBindingErrors_relabelList (s.after first) inFunction g rest]

end

end Lox
