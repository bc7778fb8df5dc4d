import Lox.Scope.Binding

/-!
# Accepted programs

`Accepted` says of a bound tree what it means to be free of binding errors, node by node: every use
of a name has the depth of its nearest declaration, no name is read in its own initializer, and no
local scope declares a name twice. `accepted_bindList`: a program without binding errors whose
declarations stand where the grammar has them is accepted once its names are bound.
-/

namespace Lox

-- ---------------------------------------------------------------------------
-- Scopes
-- ---------------------------------------------------------------------------

namespace Scope

@[simp]
theorem lookup_mark (s : Scope) (name key : String) (ready : Bool) :
    (s.mark name ready).lookup key = if key = name then some ready else s.lookup key := by
  unfold mark
  by_cases h : key = name
  · simp [h]
  · simp [List.lookup_cons, h, beq_eq_false_iff_ne.2 h]

@[simp]
theorem declares_mark (s : Scope) (name key : String) (ready : Bool) :
    (s.mark name ready).declares key = (decide (key = name) || s.declares key) := by
  unfold declares
  rw [lookup_mark]
  by_cases h : key = name <;> simp [h]

end Scope

namespace Scopes

/-- A name that may be declared here: no local scope declares a name twice. -/
def Free (s : Scopes) (name : String) : Prop :=
  s.locals ≠ [] → s.innermost.declares name = false

def AllFree (s : Scopes) : List Token → Prop
  | [] => True
  | p :: rest => s.Free p.lexeme ∧ (s.introduce p.lexeme).AllFree rest

theorem redeclared_eq_nil {s : Scopes} {name : Token} (h : s.redeclared name = []) :
    s.Free name.lexeme := by
  intro inner
  unfold redeclared at h
  split at h
  · cases h
  · next free =>
    cases hl : s.locals with
    | nil => exact absurd hl inner
    | cons scope outer => simpa [hl] using free

theorem parameterErrors_eq_nil {s : Scopes} {parameters : List Token}
    (h : s.parameterErrors parameters = []) : s.AllFree parameters := by
  induction parameters generalizing s with
  | nil => trivial
  | cons p rest ih =>
    obtain ⟨hp, hrest⟩ := List.append_eq_nil_iff.1 h
    exact ⟨redeclared_eq_nil hp, ih hrest⟩

theorem readErrors_eq_nil {s : Scopes} {name : Token} (h : s.readErrors name = []) :
    s.innermost.awaits name.lexeme = false := by
  unfold readErrors at h
  split at h
  · cases h
  · next quiet => simpa using quiet

/-- The scopes while a statement runs: its name is declared and not ready. -/
def during (s : Scopes) (statement : Stmt) : Scopes :=
  match statement.declared? with
  | some name => s.declare name.lexeme
  | none => s

end Scopes

-- ---------------------------------------------------------------------------
-- Where declarations stand
-- ---------------------------------------------------------------------------

mutual

/-- No branch and no loop body is itself a declaration, here and in all parts. -/
def Stmt.Placed : Stmt → Prop
  | .expression _ | .print _ | .variable _ _ | .return _ _ => True
  | .block body => Stmt.ListPlaced body
  | .branch _ consequent none => consequent.declared? = none ∧ consequent.Placed
  | .branch _ consequent (some alternative) =>
    (consequent.declared? = none ∧ consequent.Placed) ∧
      alternative.declared? = none ∧ alternative.Placed
  | .loop _ body => body.declared? = none ∧ body.Placed
  | .function _ _ body => Stmt.ListPlaced body

def Stmt.ListPlaced : List Stmt → Prop
  | [] => True
  | first :: rest => first.Placed ∧ Stmt.ListPlaced rest

end

-- ---------------------------------------------------------------------------
-- Accepted trees
-- ---------------------------------------------------------------------------

mutual

def Expr.Accepted (s : Scopes) : Expr → Prop
  | .literal _ => True
  | .grouping inner => inner.Accepted s
  | .unary _ operand => operand.Accepted s
  | .binary left _ right => left.Accepted s ∧ right.Accepted s
  | .logical left _ right => left.Accepted s ∧ right.Accepted s
  | .variable name depth =>
    depth = s.distance name.lexeme ∧ s.innermost.awaits name.lexeme = false
  | .assign name value depth => value.Accepted s ∧ depth = s.distance name.lexeme
  | .call callee _ arguments => callee.Accepted s ∧ Expr.ListAccepted s arguments

def Expr.ListAccepted (s : Scopes) : List Expr → Prop
  | [] => True
  | e :: rest => e.Accepted s ∧ Expr.ListAccepted s rest

end

mutual

def Stmt.Accepted (s : Scopes) (inFunction : Bool) : Stmt → Prop
  | .expression value => value.Accepted s
  | .print value => value.Accepted s
  | .variable name initializer =>
    s.Free name.lexeme ∧ ∀ e ∈ initializer, e.Accepted (s.declare name.lexeme)
  | .block body => Stmt.ListAccepted s.enter inFunction body
  | .branch condition consequent none =>
    condition.Accepted s ∧ consequent.declared? = none ∧ consequent.Accepted s inFunction
  | .branch condition consequent (some alternative) =>
    condition.Accepted s ∧ (consequent.declared? = none ∧ consequent.Accepted s inFunction) ∧
      alternative.declared? = none ∧ alternative.Accepted s inFunction
  | .loop condition body =>
    condition.Accepted s ∧ body.declared? = none ∧ body.Accepted s inFunction
  | .function name parameters body =>
    s.Free name.lexeme ∧ (s.introduce name.lexeme).enter.AllFree parameters ∧
      Stmt.ListAccepted ((s.introduce name.lexeme).inside parameters) true body
  | .return _ value => inFunction = true ∧ ∀ e ∈ value, e.Accepted s

def Stmt.ListAccepted (s : Scopes) (inFunction : Bool) : List Stmt → Prop
  | [] => True
  | first :: rest => first.Accepted s inFunction ∧ Stmt.ListAccepted (s.after first) inFunction rest

end

def Function.Accepted (s : Scopes) (function : Function) : Prop :=
  s.enter.AllFree function.parameters ∧
    Stmt.ListAccepted (s.inside function.parameters) true function.body

-- ---------------------------------------------------------------------------
-- Binding without errors
-- ---------------------------------------------------------------------------

mutual

theorem Expr.accepted_bind (s : Scopes) :
    ∀ e : Expr, e.bindingErrors s = [] → (e.bind s).Accepted s
  | .literal _, _ => trivial
  | .grouping inner, h => inner.accepted_bind s h
  | .unary _ operand, h => operand.accepted_bind s h
  | .binary left _ right, h =>
    have ⟨hl, hr⟩ := List.append_eq_nil_iff.1 h
    ⟨left.accepted_bind s hl, right.accepted_bind s hr⟩
  | .logical left _ right, h =>
    have ⟨hl, hr⟩ := List.append_eq_nil_iff.1 h
    ⟨left.accepted_bind s hl, right.accepted_bind s hr⟩
  | .variable _ _, h => ⟨rfl, Scopes.readErrors_eq_nil h⟩
  | .assign _ value _, h => ⟨value.accepted_bind s h, rfl⟩
  | .call callee _ arguments, h =>
    have ⟨hc, ha⟩ := List.append_eq_nil_iff.1 h
    ⟨callee.accepted_bind s hc, Expr.accepted_bindList s arguments ha⟩

theorem Expr.accepted_bindList (s : Scopes) :
    ∀ es : List Expr, Expr.listBindingErrors s es = [] → Expr.ListAccepted s (Expr.bindList s es)
  | [], _ => trivial
  | e :: rest, h =>
    have ⟨he, hr⟩ := List.append_eq_nil_iff.1 h
    ⟨e.accepted_bind s he, Expr.accepted_bindList s rest hr⟩

end

theorem Expr.accepted_map_bind {s : Scopes} {value : Option Expr}
    (h : s.optionalErrors value = []) :
    ∀ e ∈ value.map (Expr.bind s), e.Accepted s := by
  cases value with
  | none => simp
  | some e => simpa using e.accepted_bind s h

@[simp]
theorem Stmt.declared?_bind (s : Scopes) (t : Stmt) : (t.bind s).declared? = t.declared? := by
  fun_cases Stmt.bind s t <;> rfl

theorem Scopes.after_bind (s r : Scopes) (t : Stmt) : s.after (t.bind r) = s.after t := by
  simp [Scopes.after]

mutual

theorem Stmt.accepted_bind (s : Scopes) (inFunction : Bool) :
    ∀ t : Stmt, t.bindingErrors s inFunction = [] → t.Placed → (t.bind s).Accepted s inFunction
  | .expression value, h, _ => value.accepted_bind s h
  | .print value, h, _ => value.accepted_bind s h
  | .variable name initializer, h, _ =>
    have ⟨hn, hi⟩ := List.append_eq_nil_iff.1 h
    ⟨Scopes.redeclared_eq_nil hn, Expr.accepted_map_bind hi⟩
  | .block body, h, hp => Stmt.accepted_bindList s.enter inFunction body h hp
  | .branch condition consequent none, h, hp =>
    have ⟨hc, ht⟩ := List.append_eq_nil_iff.1 h
    ⟨condition.accepted_bind s hc, by simpa using hp.1,
      consequent.accepted_bind s inFunction ht hp.2⟩
  | .branch condition consequent (some alternative), h, hp =>
    have ⟨h, ha⟩ := List.append_eq_nil_iff.1 h
    have ⟨hc, ht⟩ := List.append_eq_nil_iff.1 h
    ⟨condition.accepted_bind s hc,
      ⟨by simpa using hp.1.1, consequent.accepted_bind s inFunction ht hp.1.2⟩,
      by simpa using hp.2.1, alternative.accepted_bind s inFunction ha hp.2.2⟩
  | .loop condition body, h, hp =>
    have ⟨hc, hb⟩ := List.append_eq_nil_iff.1 h
    ⟨condition.accepted_bind s hc, by simpa using hp.1, body.accepted_bind s inFunction hb hp.2⟩
  | .function name parameters body, h, hp =>
    have ⟨h, hb⟩ := List.append_eq_nil_iff.1 h
    have ⟨hn, hps⟩ := List.append_eq_nil_iff.1 h
    ⟨Scopes.redeclared_eq_nil hn, Scopes.parameterErrors_eq_nil hps,
      Stmt.accepted_bindList _ true body hb hp⟩
  | .return keyword value, h, _ => by
    obtain ⟨hf, hv⟩ := List.append_eq_nil_iff.1 h
    refine ⟨?_, Expr.accepted_map_bind hv⟩
    cases inFunction with
    | true => rfl
    | false => cases hf

theorem Stmt.accepted_bindList (s : Scopes) (inFunction : Bool) :
    ∀ ts : List Stmt, Stmt.listBindingErrors s inFunction ts = [] → Stmt.ListPlaced ts →
      Stmt.ListAccepted s inFunction (Stmt.bindList s ts)
  | [], _, _ => trivial
  | first :: rest, h, hp => by
    obtain ⟨hf, hr⟩ := List.append_eq_nil_iff.1 h
    refine ⟨first.accepted_bind s inFunction hf hp.1, ?_⟩
    rw [Scopes.after_bind]
    exact Stmt.accepted_bindList (s.after first) inFunction rest hr hp.2

end

end Lox
