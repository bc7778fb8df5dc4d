import Lox.Proofs.Grammar.Placement
import Lox.Proofs.Machine.Fitting

/-!
# For loops by themselves

What a `for` says, apart from the `while` it is read as: in one new scope the first clause runs
once, and then, for as long as the condition holds, the body and after it the increment. A body that
ends with a `return`, or any part that fails, ends the loop at once.
-/

namespace Lox

structure For where
  initializer : Option Stmt
  condition : Option Expr
  increment : Option Expr
  body : Stmt
  deriving Repr

-- ---------------------------------------------------------------------------
-- Running
-- ---------------------------------------------------------------------------

namespace Run

def andThen (first second : Run Completion) : Run Completion := do
  match ← first with
  | .normal => second
  | .returned value => pure (.returned value)

/-- Rounds for as long as the test holds, up to a `return`. -/
def repeatWhile (test : Nat → Run Value) (round : Nat → Run Completion) : Nat → Run Completion
  | 0 => unfinished
  | n + 1 => do
    let value ← test n
    if value.truthy then
      (round n).andThen (repeatWhile test round n)
    else
      pure .normal

end Run

namespace For

def first (l : For) (n : Nat) : Run Completion :=
  match l.initializer with
  | some first => first.execute n
  | none => pure .normal

def test (l : For) (n : Nat) : Run Value :=
  match l.condition with
  | some condition => condition.evaluate n
  | none => pure (.boolean true)

def step (l : For) (n : Nat) : Run Completion :=
  match l.increment with
  | some increment => do
    let _ ← increment.evaluate n
    pure .normal
  | none => pure .normal

def round (l : For) (n : Nat) : Run Completion :=
  (l.body.execute n).andThen (l.step n)

/-- The loop itself, all of it in one frame, save what its parts enter and leave. -/
def run (l : For) (n : Nat) : Run Completion :=
  Run.inBlock ((l.first n).andThen (Run.repeatWhile l.test l.round n))

-- ---------------------------------------------------------------------------
-- Names
-- ---------------------------------------------------------------------------

def scopes (l : For) (s : Scopes) : Scopes :=
  match l.initializer with
  | some first => s.enter.after first
  | none => s.enter

/-- The parts with the depth of every local name, in one new scope. -/
def bind (s : Scopes) (l : For) : For where
  initializer := l.initializer.map (Stmt.bind s.enter)
  condition := l.condition.map (Expr.bind (l.scopes s))
  increment := l.increment.map (Expr.bind (l.scopes s))
  body := l.body.bind (l.scopes s)

theorem distance_variable {l : For} {name : Token} {value : Option Expr}
    (h : l.initializer = some (.variable name value)) (s : Scopes) :
    (l.scopes s).distance name.lexeme = some 0 := by
  have declared : (l.scopes s).locals = Scope.introduce [] name.lexeme :: s.locals := by
    unfold scopes
    rw [h]
    exact Scopes.locals_introduce s.enter name.lexeme
  unfold Scopes.distance
  rw [declared, List.findIdx?_cons]
  simp [Scope.introduce]

def desugared (l : For) : Stmt :=
  Grammar.forLoop l.initializer l.condition l.increment l.body

end For

-- ---------------------------------------------------------------------------
-- Reading
-- ---------------------------------------------------------------------------

namespace Grammar

variable {α β γ : Type}

/-- The parts of a `for`, as `forRest` reads them. -/
def forParts (n : Nat) : Rule For := do
  let _ ← Rule.expect .leftParen "'(' after 'for'"
  let initializer ← firstClause n
  let condition ← optionalBefore .semicolon n
  let _ ← Rule.expect .semicolon "';' after loop condition"
  let increment ← optionalBefore .rightParen n
  let _ ← Rule.expect .rightParen "')' after for clauses"
  return { initializer, condition, increment, body := ← statement n }

def Rule.Changes (change : α → β) (rule : Rule α) (changed : Rule β) : Prop :=
  ∀ tokens value rest findings, changed tokens = .read value rest findings →
    ∃ original, rule tokens = .read original rest findings ∧ value = change original

theorem Rule.Changes.pure (change : α → β) (value : α) :
    Rule.Changes change (Pure.pure value) (Pure.pure (change value)) := by
  rintro tokens _ rest findings ⟨⟩
  exact ⟨value, rfl, rfl⟩

theorem Rule.Changes.bind {change : α → β} (x : Rule γ) {f : γ → Rule α} {g : γ → Rule β}
    (h : ∀ c, Rule.Changes change (f c) (g c)) : Rule.Changes change (x >>= f) (x >>= g) := by
  intro tokens value rest findings hr
  rw [Rule.bind_apply] at hr ⊢
  cases hx : x tokens with
  | read c middle noted =>
    rw [hx] at hr
    dsimp only at hr ⊢
    cases hg : g c middle with
    | read b after found =>
      rw [hg] at hr
      cases hr
      obtain ⟨a, ha, rfl⟩ := h c _ _ _ _ hg
      exact ⟨a, by rw [ha]; rfl, rfl⟩
    | stuck | broken =>
      rw [hg] at hr
      cases hr
  | stuck | broken =>
    rw [hx] at hr
    cases hr

theorem forRest_changes (n : Nat) : Rule.Changes For.desugared (forParts n) (forRest (n + 1)) := by
  refine .bind _ fun _ => .bind _ fun initializer => ?_
  refine .bind _ fun condition => .bind _ fun _ => ?_
  refine .bind _ fun increment => .bind _ fun _ => ?_
  exact .bind _ fun body => .pure For.desugared { initializer, condition, increment, body }

theorem forParts_placed (n : Nat) :
    (forParts n).Returns fun l => (∀ t ∈ l.initializer, t.Placed) ∧ Inner l.body := by
  refine .after fun _ => ?_
  refine .bind (placed_firstClause n) fun initializer hi => ?_
  refine .after fun condition => .after fun _ => ?_
  refine .after fun increment => .after fun _ => ?_
  exact .bind (inner_statement n) fun body hb => .pure ⟨hi, hb⟩

theorem statement_kwFor (n : Nat) {t : Token} (ht : t.kind = .kwFor) (tokens : List Token) :
    statement (n + 1) (t :: tokens) = forRest n tokens := by
  rw [statement, Rule.bind_apply]
  simp [Rule.peek, Rule.bind_apply, Rule.advance, ht]

theorem exists_forParts {n : Nat} {t : Token} {tokens rest : List Token} {st : Stmt}
    {found : List Finding} (ht : t.kind = .kwFor)
    (hr : statement n (t :: tokens) = .read st rest found) :
    ∃ l k, forParts k tokens = .read l rest found ∧ st = l.desugared := by
  cases n with
  | zero => cases hr
  | succ n =>
    rw [statement_kwFor n ht] at hr
    cases n with
    | zero => cases hr
    | succ k =>
      obtain ⟨l, parts, rfl⟩ := forRest_changes k _ _ _ _ hr
      exact ⟨l, k, parts, rfl⟩

end Grammar

end Lox
