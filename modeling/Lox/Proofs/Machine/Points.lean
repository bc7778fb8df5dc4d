import Lox.Proofs.Machine.Growth

/-!
# The points of a run

A run of a part of a program runs smaller parts in its course, each from the machine that it has
come to by then. `Enters` lists them, one rule for every place of the language that runs something,
and `Reaches` follows them to any depth: through operands and statements, into the bodies of
functions, and round loops. A part that is entered need not finish, so runs that go on for ever have
points too.

`error_reached`: an error is raised at a point, by an expression of its own and not by a part of it.
`undefined_reached`: for an undefined name that is where a variable is read or assigned.
-/

namespace Lox

inductive Part where
  | expression (e : Expr)
  | arguments (es : List Expr)
  | call (callable : Callable) (arguments : List Value)
  | statement (t : Stmt)
  | statements (ts : List Stmt)
  /-- The statements of a program at top level. -/
  | program (ts : List Stmt)

/-- The first part, run with some steps from a machine, runs the second one with the steps and from
the machine given with it. -/
inductive Enters : Nat → Part → Machine → Nat → Part → Machine → Prop
  | grouping {n inner m} :
    Enters (n + 1) (.expression (.grouping inner)) m n (.expression inner) m
  | operand {n operator operand m} :
    Enters (n + 1) (.expression (.unary operator operand)) m n (.expression operand) m
  | binaryLeft {n left operator right m} :
    Enters (n + 1) (.expression (.binary left operator right)) m n (.expression left) m
  | binaryRight {n left operator right m a m'} :
    left.evaluate n m = .done a m' →
    Enters (n + 1) (.expression (.binary left operator right)) m n (.expression right) m'
  | logicalLeft {n left operator right m} :
    Enters (n + 1) (.expression (.logical left operator right)) m n (.expression left) m
  | logicalRight {n left operator right m a m'} :
    left.evaluate n m = .done a m' →
    operator.kind = .kwOr ∧ a.truthy = false ∨ operator.kind = .kwAnd ∧ a.truthy = true →
    Enters (n + 1) (.expression (.logical left operator right)) m n (.expression right) m'
  | assigned {n name value depth m} :
    Enters (n + 1) (.expression (.assign name value depth)) m n (.expression value) m
  | callee {n callee paren arguments m} :
    Enters (n + 1) (.expression (.call callee paren arguments)) m n (.expression callee) m
  | arguments {n callee paren arguments m a m'} :
    callee.evaluate n m = .done a m' →
    Enters (n + 1) (.expression (.call callee paren arguments)) m n (.arguments arguments) m'
  | call {n callee paren arguments m function m' values m''} :
    callee.evaluate n m = .done (.callable function) m' →
    Expr.evaluateList n arguments m' = .done values m'' →
    values.length = function.arity →
    Enters (n + 1) (.expression (.call callee paren arguments)) m n (.call function values) m''
  | firstArgument {n e rest m} :
    Enters (n + 1) (.arguments (e :: rest)) m n (.expression e) m
  | otherArguments {n e rest m a m'} :
    e.evaluate n m = .done a m' →
    Enters (n + 1) (.arguments (e :: rest)) m n (.arguments rest) m'
  | body {n c values m function frame} :
    c.callee = .closure function frame →
    Enters (n + 1) (.call c values) m
      n (.statements function.body) (m.entered frame (function.bindings values))
  | expression {n value m} :
    Enters (n + 1) (.statement (.expression value)) m n (.expression value) m
  | printed {n value m} :
    Enters (n + 1) (.statement (.print value)) m n (.expression value) m
  | initializer {n name initializer m} :
    Enters (n + 1) (.statement (.variable name (some initializer))) m n (.expression initializer) m
  | block {n body m} :
    Enters (n + 1) (.statement (.block body)) m n (.statements body) (m.entered m.current [])
  | branchCondition {n condition consequent alternative m} :
    Enters (n + 1) (.statement (.branch condition consequent alternative)) m
      n (.expression condition) m
  | consequent {n condition consequent alternative m a m'} :
    condition.evaluate n m = .done a m' → a.truthy = true →
    Enters (n + 1) (.statement (.branch condition consequent alternative)) m
      n (.statement consequent) m'
  | alternative {n condition consequent alternative m a m'} :
    condition.evaluate n m = .done a m' → a.truthy = false →
    Enters (n + 1) (.statement (.branch condition consequent (some alternative))) m
      n (.statement alternative) m'
  | loopCondition {n condition body m} :
    Enters (n + 1) (.statement (.loop condition body)) m n (.expression condition) m
  | loopBody {n condition body m a m'} :
    condition.evaluate n m = .done a m' → a.truthy = true →
    Enters (n + 1) (.statement (.loop condition body)) m n (.statement body) m'
  | loopAgain {n condition body m a m' m''} :
    condition.evaluate n m = .done a m' → a.truthy = true → body.execute n m' = .done .normal m'' →
    Enters (n + 1) (.statement (.loop condition body)) m n (.statement (.loop condition body)) m''
  | returned {n keyword value m} :
    Enters (n + 1) (.statement (.return keyword (some value))) m n (.expression value) m
  | first {n t rest m} :
    Enters (n + 1) (.statements (t :: rest)) m n (.statement t) m
  | rest {n t rest m m'} :
    t.execute n m = .done .normal m' →
    Enters (n + 1) (.statements (t :: rest)) m n (.statements rest) m'
  | programFirst {n t rest m} :
    Enters n (.program (t :: rest)) m n (.statement t) m
  | programRest {n t rest m completion m'} :
    t.execute n m = .done completion m' →
    Enters n (.program (t :: rest)) m n (.program rest) m'

/-- The run of the first part comes to run the second one, at once or through parts between them. -/
inductive Reaches : Nat → Part → Machine → Nat → Part → Machine → Prop
  | here {n p m} : Reaches n p m n p m
  | step {n p m k q m' j r m''} :
    Enters n p m k q m' → Reaches k q m' j r m'' → Reaches n p m j r m''

-- ---------------------------------------------------------------------------
-- Where an error is raised
-- ---------------------------------------------------------------------------

variable {α β : Type}

theorem Run.bind_eq_failed {x : Run α} {f : α → Run β} {m m' : Machine} {e : RuntimeError}
    (h : (x >>= f) m = .failed e m') :
    x m = .failed e m' ∨ ∃ a m₁, x m = .done a m₁ ∧ f a m₁ = .failed e m' := by
  rw [bind_apply] at h
  cases hx : x m with
  | done a m₁ =>
    rw [hx] at h
    exact .inr ⟨a, m₁, rfl, h⟩
  | failed e₁ m₁ =>
    rw [hx] at h
    cases h
    exact .inl rfl
  | unfinished =>
    rw [hx] at h
    cases h

theorem Outcome.onMachine_eq_failed {o : Outcome α} {change : Machine → Machine} {m' : Machine}
    {e : RuntimeError} (h : o.onMachine change = .failed e m') : ∃ m, o = .failed e m := by
  cases o with
  | failed e₁ m =>
    cases h
    exact ⟨m, rfl⟩
  | done | unfinished => cases h

def Part.Fails (n : Nat) (m : Machine) (e : RuntimeError) : Part → Prop
  | .expression x => ∃ m', x.evaluate n m = .failed e m'
  | .arguments xs => ∃ m', Expr.evaluateList n xs m = .failed e m'
  | .call c values => ∃ m', c.call n values m = .failed e m'
  | .statement t => ∃ m', t.execute n m = .failed e m'
  | .statements ts => ∃ m', Stmt.executeList n ts m = .failed e m'
  | .program ts => ∃ m', Stmt.runProgram n ts m = .failed e m'

/-- A variable that finds no value, or an assignment of a global name that is not bound. -/
inductive Expr.Misses (m : Machine) (e : RuntimeError) : Expr → Prop
  | read {name depth} : Run.read name depth m = .failed e m → Misses m e (.variable name depth)
  | assign {name value} : e = .undefined name → Misses m e (.assign name value none)

def RuntimeError.IsUndefined (e : RuntimeError) : Prop :=
  ∃ name, e.cause = .undefinedVariable name

theorem Run.read_eq_done {name : Token} {depth : Option Nat} {m m' : Machine} {v : Value}
    (h : Run.read name depth m = .done v m') :
    m' = m ∧ ∃ frame, m.heap.own? frame name.lexeme = some v := by
  rcases Run.read_cases name m depth with ⟨frame, value, own, read⟩ | missed
  · cases read.symm.trans h
    exact ⟨rfl, frame, own⟩
  · cases missed.symm.trans h

theorem Run.read_eq_failed {name : Token} {depth : Option Nat} {m m' : Machine} {e : RuntimeError}
    (h : Run.read name depth m = .failed e m') : m' = m ∧ e = .undefined name := by
  rcases Run.read_cases name m depth with ⟨_, value, -, read⟩ | missed
  · cases read.symm.trans h
  · cases missed.symm.trans h
    exact ⟨rfl, rfl⟩

theorem Run.assign_eq_failed {name : Token} {depth : Option Nat} {value : Value} {m m' : Machine}
    {e : RuntimeError} (h : Run.assign name depth value m = .failed e m') :
    depth = none ∧ e = .undefined name := by
  rcases Run.assign_cases name m depth value with ⟨frame, written⟩ | ⟨rfl, missed⟩
  · cases written.symm.trans h
  · cases missed.symm.trans h
    exact ⟨rfl, rfl⟩

theorem Value.binary_ne_undefined {operator : Kind} {a b : Value} {name : String} :
    Value.binary operator a b ≠ .error (.undefinedVariable name) := by
  intro h
  unfold Value.binary Value.plus Value.onNumbers at h
  repeat' split at h
  all_goals cases h

theorem Value.unary_ne_undefined {operator : Kind} {a : Value} {name : String} :
    Value.unary operator a ≠ .error (.undefinedVariable name) := by
  intro h
  unfold Value.unary at h
  split at h <;> cases h

/-- The expression itself raises the error, once its parts have their values. -/
inductive Expr.Raises (m : Machine) : RuntimeError → Expr → Prop
  | unary {operator operand} {a : Value} {cause} :
    Value.unary operator.kind a = .error cause →
    Raises m { line := operator.line, cause := cause } (.unary operator operand)
  | binary {left operator right} {a b : Value} {cause} :
    Value.binary operator.kind a b = .error cause →
    Raises m { line := operator.line, cause := cause } (.binary left operator right)
  | logical {left operator right} :
    operator.kind ≠ .kwOr → operator.kind ≠ .kwAnd →
    Raises m { line := operator.line, cause := .invalidOperator operator.kind.name }
      (.logical left operator right)
  | read {name depth e} : Run.read name depth m = .failed e m → Raises m e (.variable name depth)
  | assign {name value} : Raises m (.undefined name) (.assign name value none)
  | callee {callee paren arguments} :
    Raises m { line := paren.line, cause := .notCallable } (.call callee paren arguments)
  | arity {callee paren arguments expected} : arguments.length ≠ expected →
    Raises m { line := paren.line, cause := .arityMismatch expected arguments.length }
      (.call callee paren arguments)

theorem Expr.Raises.misses {m : Machine} {e : RuntimeError} {x : Expr} (h : x.Raises m e)
    (hu : e.IsUndefined) : x.Misses m e := by
  obtain ⟨name, hn⟩ := hu
  cases h with
  | unary h =>
    cases hn
    exact absurd h Value.unary_ne_undefined
  | binary h =>
    cases hn
    exact absurd h Value.binary_ne_undefined
  | logical | callee | arity => cases hn
  | read h => exact .read h
  | assign => exact .assign rfl

theorem Run.check_eq_failed {line : Nat} {r : Except RuntimeCause Value} {m m' : Machine}
    {e : RuntimeError} (h : Run.check line r m = .failed e m') :
    ∃ cause, r = .error cause ∧ e = { line := line, cause := cause } := by
  cases r with
  | ok value => cases h
  | error cause =>
    cases h
    exact ⟨cause, rfl, rfl⟩

theorem Run.bind_eq_done {x : Run α} {f : α → Run β} {m m' : Machine} {b : β}
    (h : (x >>= f) m = .done b m') : ∃ a m₁, x m = .done a m₁ ∧ f a m₁ = .done b m' := by
  rw [bind_apply] at h
  cases hx : x m with
  | done a m₁ =>
    rw [hx] at h
    exact ⟨a, m₁, rfl, h⟩
  | failed | unfinished =>
    rw [hx] at h
    cases h

theorem Expr.length_evaluateList {n : Nat} {es : List Expr} {m m' : Machine} {values : List Value}
    (h : Expr.evaluateList n es m = .done values m') : values.length = es.length := by
  induction es generalizing n m values with
  | nil =>
    cases n with
    | zero => cases h
    | succ n =>
      cases h
      rfl
  | cons e rest ih =>
    cases n with
    | zero => cases h
    | succ n =>
      obtain ⟨a, m₁, -, h⟩ := Run.bind_eq_done h
      obtain ⟨others, m₂, hr, h⟩ := Run.bind_eq_done h
      cases h
      simp [ih hr]

section
variable {n : Nat} {m m' : Machine} {e : RuntimeError}

theorem Expr.enters_of_failed {x : Expr} (hf : x.evaluate n m = .failed e m') :
    x.Raises m e ∨ ∃ k q m₁, Enters n (.expression x) m k q m₁ ∧ q.Fails k m₁ e := by
  cases n with
  | zero => cases hf
  | succ n =>
    cases x with
    | literal value => cases hf
    | grouping inner => exact .inr ⟨n, _, m, .grouping, m', hf⟩
    | unary operator operand =>
      rcases Run.bind_eq_failed hf with h | ⟨a, m₁, -, h⟩
      · exact .inr ⟨n, _, m, .operand, m', h⟩
      · obtain ⟨cause, hc, rfl⟩ := Run.check_eq_failed h
        exact .inl (.unary hc)
    | binary left operator right =>
      rcases Run.bind_eq_failed hf with h | ⟨a, m₁, hl, h⟩
      · exact .inr ⟨n, _, m, .binaryLeft, m', h⟩
      rcases Run.bind_eq_failed h with h | ⟨b, m₂, -, h⟩
      · exact .inr ⟨n, _, m₁, .binaryRight hl, m', h⟩
      · obtain ⟨cause, hc, rfl⟩ := Run.check_eq_failed h
        exact .inl (.binary hc)
    | logical left operator right =>
      rcases Run.bind_eq_failed hf with h | ⟨a, m₁, hl, h⟩
      · exact .inr ⟨n, _, m, .logicalLeft, m', h⟩
      generalize ho : operator.kind = kind at h
      split at h
      · split at h
        · cases h
        · next ha => exact .inr ⟨n, _, m₁, .logicalRight hl (.inl ⟨ho, by simpa using ha⟩), m', h⟩
      · split at h
        · next ha => exact .inr ⟨n, _, m₁, .logicalRight hl (.inr ⟨ho, ha⟩), m', h⟩
        · cases h
      · next hor hand =>
        subst ho
        cases h
        exact .inl (.logical hor hand)
    | «variable» name depth =>
      obtain ⟨rfl, -⟩ := Run.read_eq_failed hf
      exact .inl (.read hf)
    | assign name value depth =>
      rcases Run.bind_eq_failed hf with h | ⟨a, m₁, -, h⟩
      · exact .inr ⟨n, _, m, .assigned, m', h⟩
      rcases Run.bind_eq_failed h with h | ⟨_, m₂, -, h⟩
      · obtain ⟨rfl, rfl⟩ := Run.assign_eq_failed h
        exact .inl .assign
      · cases h
    | call callee paren arguments =>
      rcases Run.bind_eq_failed hf with h | ⟨f, m₁, hc, h⟩
      · exact .inr ⟨n, _, m, .callee, m', h⟩
      rcases Run.bind_eq_failed h with h | ⟨values, m₂, ha, h⟩
      · exact .inr ⟨n, _, m₁, .arguments hc, m', h⟩
      split at h
      · split at h
        · next hl => exact .inr ⟨n, _, m₂, .call hc ha hl, m', h⟩
        · next hl =>
          cases h
          rw [Expr.length_evaluateList ha] at hl ⊢
          exact .inl (.arity hl)
      · cases h
        exact .inl .callee

theorem Stmt.enters_of_failed {t : Stmt} (hf : t.execute n m = .failed e m') :
    ∃ k q m₁, Enters n (.statement t) m k q m₁ ∧ q.Fails k m₁ e := by
  cases n with
  | zero => cases hf
  | succ n =>
    cases t with
    | expression value =>
      rcases Run.bind_eq_failed hf with h | ⟨a, m₁, -, h⟩
      · exact ⟨n, _, m, .expression, m', h⟩
      · cases h
    | print value =>
      rcases Run.bind_eq_failed hf with h | ⟨a, m₁, -, h⟩
      · exact ⟨n, _, m, .printed, m', h⟩
      · cases h
    | «variable» name initializer =>
      cases initializer with
      | none => cases hf
      | some initializer =>
        rcases Run.bind_eq_failed hf with h | ⟨a, m₁, -, h⟩
        · exact ⟨n, _, m, .initializer, m', h⟩
        · cases h
    | block body =>
      obtain ⟨m₁, h⟩ := Outcome.onMachine_eq_failed hf
      exact ⟨n, _, _, .block, m₁, h⟩
    | branch condition consequent alternative =>
      rcases Run.bind_eq_failed hf with h | ⟨a, m₁, hc, h⟩
      · exact ⟨n, _, m, .branchCondition, m', h⟩
      split at h
      · next ha => exact ⟨n, _, m₁, .consequent hc ha, m', h⟩
      · next ha =>
        cases alternative with
        | none => cases h
        | some t => exact ⟨n, _, m₁, .alternative hc (by simpa using ha), m', h⟩
    | loop condition body =>
      rcases Run.bind_eq_failed hf with h | ⟨a, m₁, hc, h⟩
      · exact ⟨n, _, m, .loopCondition, m', h⟩
      split at h
      · next ha =>
        rcases Run.bind_eq_failed h with h | ⟨completion, m₂, hb, h⟩
        · exact ⟨n, _, m₁, .loopBody hc ha, m', h⟩
        cases completion with
        | normal => exact ⟨n, _, m₂, .loopAgain hc ha hb, m', h⟩
        | returned value => cases h
      · cases h
    | function name parameters body => cases hf
    | «return» keyword value =>
      cases value with
      | none => cases hf
      | some value =>
        rcases Run.bind_eq_failed hf with h | ⟨a, m₁, -, h⟩
        · exact ⟨n, _, m, .returned, m', h⟩
        · cases h

theorem Part.Fails.enters {p : Part} (hf : p.Fails n m e) :
    (∃ x, p = .expression x ∧ x.Raises m e) ∨ ∃ k q m₁, Enters n p m k q m₁ ∧ q.Fails k m₁ e := by
  cases p with
  | expression x =>
    obtain ⟨m', hf⟩ := hf
    rcases Expr.enters_of_failed hf with h | h
    · exact .inl ⟨x, rfl, h⟩
    · exact .inr h
  | arguments xs =>
    obtain ⟨m', hf⟩ := hf
    refine .inr ?_
    cases n with
    | zero => cases hf
    | succ n =>
      cases xs with
      | nil => cases hf
      | cons x rest =>
        rcases Run.bind_eq_failed hf with h | ⟨a, m₁, hx, h⟩
        · exact ⟨n, _, m, .firstArgument, m', h⟩
        rcases Run.bind_eq_failed h with h | ⟨values, m₂, -, h⟩
        · exact ⟨n, _, m₁, .otherArguments hx, m', h⟩
        · cases h
  | call c values =>
    obtain ⟨m', hf⟩ := hf
    refine .inr ?_
    cases n with
    | zero => cases hf
    | succ n =>
      rw [Callable.call] at hf
      cases hc : c.callee with
      | clock =>
        rw [hc] at hf
        cases hf
      | closure function frame =>
        rw [hc] at hf
        rcases Run.bind_eq_failed hf with h | ⟨completion, m₁, -, h⟩
        · obtain ⟨m₁, h⟩ := Outcome.onMachine_eq_failed h
          exact ⟨n, _, _, .body hc, m₁, h⟩
        · cases h
  | statement t =>
    obtain ⟨m', hf⟩ := hf
    exact .inr (Stmt.enters_of_failed hf)
  | statements ts =>
    obtain ⟨m', hf⟩ := hf
    refine .inr ?_
    cases n with
    | zero => cases hf
    | succ n =>
      cases ts with
      | nil => cases hf
      | cons t rest =>
        rcases Run.bind_eq_failed hf with h | ⟨completion, m₁, ht, h⟩
        · exact ⟨n, _, m, .first, m', h⟩
        cases completion with
        | normal => exact ⟨n, _, m₁, .rest ht, m', h⟩
        | returned value => cases h
  | program ts =>
    obtain ⟨m', hf⟩ := hf
    refine .inr ?_
    cases ts with
    | nil => cases hf
    | cons t rest =>
      rcases Run.bind_eq_failed hf with h | ⟨completion, m₁, ht, h⟩
      · exact ⟨n, _, m, .programFirst, m', h⟩
      · exact ⟨n, _, m₁, .programRest ht, m', h⟩

end

/-- A bound on how many parts lie between a part and the ones it reaches: each takes a step, but for
the statements of a program, which share theirs. -/
def Part.rank (n : Nat) : Part → Nat
  | .program ts => n + ts.length + 1
  | _ => n

theorem Enters.rank_lt {n k : Nat} {p q : Part} {m m' : Machine} (h : Enters n p m k q m') :
    q.rank k < p.rank n := by
  cases h <;> simp only [Part.rank, List.length_cons] <;> omega

/-- An error comes from a point of the run, at which an expression raises it. -/
theorem error_reached {n : Nat} {p : Part} {m : Machine} {e : RuntimeError} (hf : p.Fails n m e) :
    ∃ k x m', Reaches n p m k (.expression x) m' ∧ x.Raises m' e := by
  induction hr : p.rank n using Nat.strongRecOn generalizing n p m with
  | ind r ih =>
    rcases hf.enters with ⟨x, rfl, hx⟩ | ⟨k, q, m₁, hq, hf⟩
    · exact ⟨n, x, m, .here, hx⟩
    · obtain ⟨j, x, m', hreach, hx⟩ := ih _ (hr ▸ hq.rank_lt) hf rfl
      exact ⟨j, x, m', .step hq hreach, hx⟩

theorem undefined_reached {n : Nat} {p : Part} {m : Machine} {e : RuntimeError} (hf : p.Fails n m e)
    (hu : e.IsUndefined) : ∃ k x m', Reaches n p m k (.expression x) m' ∧ x.Misses m' e := by
  obtain ⟨k, x, m', hreach, hx⟩ := error_reached hf
  exact ⟨k, x, m', hreach, hx.misses hu⟩

end Lox
