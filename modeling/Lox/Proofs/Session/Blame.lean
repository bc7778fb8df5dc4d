import Lox.Proofs.Machine.Provenance
import Lox.Proofs.Session.GlobalNames
import Lox.Proofs.Session.KnownNames
import Lox.Proofs.Session.Reads
import Lox.Proofs.Source.Lines

/-!
# What errors point at

A run of a session evaluates expressions of the source that it is given and of functions that
earlier sources declared. So an error while it runs is raised by an expression that stands in one of
these sources, and the error tells which sort of expression and on which line. That expressions are
built on operators that have rules leaves no other errors. Errors before a run are on lines of the
source itself.
-/

namespace Lox

-- ---------------------------------------------------------------------------
-- Sources and sessions
-- ---------------------------------------------------------------------------

/-- The expression stands in the tree of the source, with names bound. The tree is the same whatever
global names are known. -/
def Source.Contains (source : String) (x : Expr) : Prop :=
  ∃ reading, Grammar.parse (Scan.ofSource source).tokens = .ok reading ∧
    x ∈ Stmt.listNodes (Bound.ofStatements [] reading.statements).statements

theorem Source.contains_of_compile {globals : List String} {source : String}
    {statements : List Stmt} (h : compile globals source = .ok statements) :
    ∀ x ∈ Stmt.listNodes statements, Source.Contains source x := by
  obtain ⟨reading, parsed, -, -, -, rfl⟩ := compile_eq_ok h
  intro x hx
  rw [Bound.statements_eq [] globals] at hx
  exact ⟨reading, parsed, hx⟩

namespace Source.Contains

variable {source : String} {x : Expr}

theorem kinded (h : Source.Contains source x) : x.Kinded := by
  obtain ⟨reading, parsed, hx⟩ := h
  obtain ⟨y, hy, s, rfl⟩ := Stmt.mem_nodes_bindList _ _ hx
  rw [Expr.kinded_bind]
  exact (Grammar.parse_draws parsed).statements.kinded y hy

theorem hasLine (h : Source.Contains source x) {t : Token} (ht : t ∈ x.token?) :
    HasLine source t.line := by
  obtain ⟨reading, parsed, hx⟩ := h
  obtain ⟨y, hy, s, rfl⟩ := Stmt.mem_nodes_bindList _ _ hx
  rw [Expr.token?_bind] at ht
  exact hasLine_token ((Grammar.parse_draws parsed).statements.token y hy t ht)

end Source.Contains

/-- A session after any requests, and the sources that it was asked to run, the latest one first. -/
inductive Session.HasRun : List String → Session → Prop
  | start (output : Output) (reading : Nat → Float) : HasRun [] (Session.start output reading)
  | run {sources : List String} {s : Session} (steps : Nat) (source : String) :
    HasRun sources s → HasRun (source :: sources) (s.run steps source).2
  | takeOutput {sources : List String} {s : Session} : HasRun sources s →
    HasRun sources s.takeOutput.2
  | write {sources : List String} {s : Session} (text : String) :
    HasRun sources s → HasRun sources (s.write text)

namespace Session

variable {sources : List String} {s : Session}

theorem HasRun.reachable (h : s.HasRun sources) : s.Reachable := by
  induction h with
  | start output reading => exact .start output reading
  | run steps source _ ih => exact .run steps source ih
  | takeOutput _ ih => exact .takeOutput ih
  | write text _ ih => exact .write text ih

theorem Reachable.hasRun (h : s.Reachable) : ∃ sources, s.HasRun sources := by
  induction h with
  | start output reading => exact ⟨[], .start output reading⟩
  | run steps source _ ih =>
    obtain ⟨sources, ran⟩ := ih
    exact ⟨source :: sources, .run steps source ran⟩
  | takeOutput _ ih =>
    obtain ⟨sources, ran⟩ := ih
    exact ⟨sources, .takeOutput ran⟩
  | write text _ ih =>
    obtain ⟨sources, ran⟩ := ih
    exact ⟨sources, .write text ran⟩

end Session

def Source.AnyContains (sources : List String) (x : Expr) : Prop :=
  ∃ source ∈ sources, Source.Contains source x

theorem Source.anyContains_of_compile {globals sources : List String} {source : String}
    {statements : List Stmt} (h : compile globals source = .ok statements) :
    ∀ x ∈ Stmt.listNodes statements, Source.AnyContains (source :: sources) x := by
  intro x hx
  exact ⟨source, List.mem_cons_self, Source.contains_of_compile h x hx⟩

theorem Source.AnyContains.cons {sources : List String} {x : Expr}
    (h : Source.AnyContains sources x)
    (source : String) : Source.AnyContains (source :: sources) x := by
  obtain ⟨origin, member, contains⟩ := h
  exact ⟨origin, List.mem_cons_of_mem source member, contains⟩

theorem Machine.madeOf_initial (P : Expr → Prop) (output : Output) (reading : Nat → Float) :
    (Machine.initial output reading).heap.MadeOf P := by
  have empty : Heap.initial.MadeOf P := by
    intro frame name v hv
    rw [Heap.own?_initial] at hv
    cases hv
  refine empty.define _ _ ?_
  rintro function frame ⟨⟩

theorem Session.HasRun.madeOf {sources : List String} {s : Session} (h : s.HasRun sources) :
    s.machine.heap.MadeOf (Source.AnyContains sources) := by
  induction h with
  | start output reading => exact Machine.madeOf_initial _ output reading
  | @run sources s steps source _ ih =>
    have before : s.machine.heap.MadeOf (Source.AnyContains (source :: sources)) :=
      ih.mono fun x hx => hx.cons source
    unfold Session.run
    split
    · next statements compiled =>
      have made := Stmt.runProgram_makes steps (Source.anyContains_of_compile compiled) _ before
      unfold Session.execute
      revert made
      cases Stmt.runProgram steps statements s.machine with
      | done _ m => exact fun made => made.1
      | failed _ m => exact id
      | unfinished => exact fun _ => before
    · exact before
  | takeOutput _ ih => exact ih
  | write text _ ih => exact ih

-- ---------------------------------------------------------------------------
-- Errors while a program runs
-- ---------------------------------------------------------------------------

/-- The operators that take numbers and nothing else. -/
def Kind.numberOperators : List Kind :=
  [.minus, .star, .slash, .greater, .greaterEqual, .less, .lessEqual]

/-- The error can be blamed on the expression, whose token is on the line of the error. -/
inductive Expr.BlamedFor : RuntimeError → Expr → Prop
  | read {name} : BlamedFor ⟨name.line, .undefinedVariable name.lexeme⟩ (.variable name none)
  | assigned {name value} :
    BlamedFor ⟨name.line, .undefinedVariable name.lexeme⟩ (.assign name value none)
  | negated {operator operand} : operator.kind = .minus →
    BlamedFor ⟨operator.line, .operandNotNumber⟩ (.unary operator operand)
  | computed {left operator right} : operator.kind ∈ Kind.numberOperators →
    BlamedFor ⟨operator.line, .operandsNotNumbers⟩ (.binary left operator right)
  | added {left operator right} : operator.kind = .plus →
    BlamedFor ⟨operator.line, .operandsNotNumbersOrStrings⟩ (.binary left operator right)
  | called {callee paren arguments} : paren.kind = .rightParen →
    BlamedFor ⟨paren.line, .notCallable⟩ (.call callee paren arguments)
  | counted {callee paren arguments expected} : paren.kind = .rightParen →
    arguments.length ≠ expected →
    BlamedFor ⟨paren.line, .arityMismatch expected arguments.length⟩ (.call callee paren arguments)

theorem Expr.BlamedFor.line {e : RuntimeError} {x : Expr} (h : x.BlamedFor e) :
    ∃ t ∈ x.token?, t.line = e.line := by
  cases h <;> exact ⟨_, rfl, rfl⟩

theorem Value.unary_eq_error {operator : Kind} {a : Value} {cause : RuntimeCause}
    (hk : operator = .bang ∨ operator = .minus) (h : Value.unary operator a = .error cause) :
    operator = .minus ∧ cause = .operandNotNumber := by
  rcases hk with rfl | rfl
  · cases h
  · cases a with
    | number x => cases h
    | _ =>
      cases h
      exact ⟨rfl, rfl⟩

theorem Value.binary_eq_error {operator : Kind} {a b : Value} {cause : RuntimeCause}
    (hk : operator ∈ Kind.binaryOperators) (h : Value.binary operator a b = .error cause) :
    operator ∈ Kind.numberOperators ∧ cause = .operandsNotNumbers ∨
      operator = .plus ∧ cause = .operandsNotNumbersOrStrings := by
  have numbers {rule : Float → Float → Value} (h : Value.onNumbers rule a b = .error cause) :
      cause = .operandsNotNumbers := by
    unfold Value.onNumbers at h
    split at h <;> cases h
    rfl
  cases operator with
  | plus =>
    simp only [Value.binary] at h
    unfold Value.plus at h
    split at h
    · cases h
    · cases h
    · cases h
      exact .inr ⟨rfl, rfl⟩
  | minus | star | slash | greater | greaterEqual | less | lessEqual =>
    exact .inl ⟨by simp [Kind.numberOperators], numbers h⟩
  | equalEqual | bangEqual => cases h
  | _ => simp [Kind.binaryOperators] at hk

theorem Expr.Raises.blamed {m : Machine} {e : RuntimeError} {x : Expr} (h : x.Raises m e)
    (hk : x.Kinded) (hd : ∀ name d, x ≠ .variable name (some d)) : x.BlamedFor e := by
  cases h with
  | unary failed =>
    obtain ⟨minus, rfl⟩ := Value.unary_eq_error hk failed
    exact .negated minus
  | binary failed =>
    obtain ⟨number, rfl⟩ | ⟨plus, rfl⟩ := Value.binary_eq_error hk failed
    · exact .computed number
    · exact .added plus
  | logical notOr notAnd =>
    rcases hk with isAnd | isOr
    · exact absurd isAnd notAnd
    · exact absurd isOr notOr
  | @read name depth _ failed =>
    obtain ⟨-, rfl⟩ := Run.read_eq_failed failed
    cases depth with
    | none => exact .read
    | some d => exact absurd rfl (hd name d)
  | assign => exact .assigned
  | callee => exact .called hk
  | arity count => exact .counted hk count

theorem Session.HasRun.blamed {sources : List String} {s s' : Session} (hs : s.HasRun sources)
    {n : Nat} {source : String} {e : RuntimeError}
    (h : s.run n source = (.failure (.runtime e), s')) :
    ∃ origin ∈ source :: sources, ∃ x, Source.Contains origin x ∧ x.BlamedFor e := by
  obtain ⟨statements, compiled, failed⟩ := Session.run_eq_runtime h
  have before : s.machine.heap.MadeOf (Source.AnyContains (source :: sources)) :=
    hs.madeOf.mono fun x hx => hx.cons source
  have made : (Part.program statements).MadeOf (Source.AnyContains (source :: sources)) :=
    Source.anyContains_of_compile compiled
  have fails : (Part.program statements).Fails n s.machine e := ⟨_, failed⟩
  obtain ⟨k, x, m, reached, raises, origin, member, contains⟩ := error_made fails before made
  refine ⟨origin, member, x, contains, raises.blamed contains.kinded ?_⟩
  -- a variable that is bound to a scope is found there
  rintro name d rfl
  obtain ⟨reading, parsed, -, -, bound, rfl⟩ := compile_eq_ok compiled
  have rests := hs.reachable.resting
  have fits : (Part.program (Bound.ofStatements s.machine.globalNames
      reading.statements).statements).Fits s.machine :=
    ⟨_, rests.fits, by simp [Settled, Scopes.topLevel], accepted_of_parse parsed bound⟩
  obtain ⟨_, _, -, -, -, -, found⟩ := reached.read_bound rests.sound fits
  cases raises with
  | read missed =>
    rw [found] at missed
    cases missed

/-- Whatever tokens are read, with errors or without, expressions are built on operators that have
rules: `!` and `-` before an operand, the ten operators of arithmetic, comparison and equality, and
`and` and `or`. So no run in any session fails for want of a rule. -/
theorem operators_have_rules :
    (∀ tokens reading, Grammar.parse tokens = .ok reading →
      ∀ x ∈ Stmt.listNodes reading.statements, x.Kinded) ∧
    ∀ s : Session, s.Reachable → ∀ n source line operator,
      (s.run n source).1 ≠ .failure (.runtime ⟨line, .invalidOperator operator⟩) := by
  refine ⟨fun tokens reading parsed => (Grammar.parse_draws parsed).statements.kinded, ?_⟩
  intro s hs n source line operator failed
  obtain ⟨sources, ran⟩ := hs.hasRun
  obtain ⟨_, -, x, -, blamed⟩ := ran.blamed (Prod.ext failed rfl)
  cases blamed

def negatesNil : List Token :=
  [⟨.minus, "-", none, 1⟩, ⟨.kwNil, "nil", none, 1⟩, ⟨.semicolon, ";", none, 1⟩,
    ⟨.rightParen, ")", none, 1⟩, ⟨.semicolon, ";", none, 1⟩, Token.atEnd 1]

theorem operators_have_rules_negation :
    (∃ reading, Grammar.parse negatesNil = .ok reading ∧ reading.findings ≠ [] ∧
      (Stmt.listNodes reading.statements).length = 2 ∧
      ∀ x ∈ Stmt.listNodes reading.statements, x.Kinded) ∧
    ((Session.start (.buffer "") fun _ => 0).run 9 "-nil;").1 ≠
      .failure (.runtime ⟨1, .invalidOperator "Minus"⟩) := by
  have parsed : ∃ reading, Grammar.parse negatesNil = .ok reading ∧ reading.findings ≠ [] ∧
      (Stmt.listNodes reading.statements).length = 2 := ⟨_, rfl, List.cons_ne_nil _ _, rfl⟩
  obtain ⟨reading, hp, errors, two⟩ := parsed
  exact ⟨⟨reading, hp, errors, two, operators_have_rules.1 negatesNil reading hp⟩,
    operators_have_rules.2 _ (.start _ _) 9 "-nil;" 1 "Minus"⟩

-- ---------------------------------------------------------------------------
-- Errors before a program runs
-- ---------------------------------------------------------------------------

def Occurrence.token : Occurrence → Token
  | returning keyword _ => keyword
  | declaration name _ => name
  | read name _ => name

theorem Occurrence.error?_at {globals : List String} {o : Occurrence} {e : BindingError}
    (h : o.error? globals = some e) : ∃ cause, e = .at o.token cause := by
  unfold Occurrence.error? at h
  repeat' split at h
  all_goals cases h <;> exact ⟨_, rfl⟩

theorem Occurrence.StandsIn.drawn {T : Token → Prop} {nodes : List Expr} {keys : List Token}
    {o : Occurrence} (h : o.StandsIn nodes keys) (hd : Drawn T nodes keys) : T o.token := by
  cases o with
  | returning | declaration => exact hd.key _ h
  | read name initialized =>
    obtain ⟨x, hx, hn⟩ := h
    obtain ⟨depth, rfl⟩ := Expr.readName?_eq_some hn
    exact hd.token _ hx name rfl

def SyntaxError.line : SyntaxError → Nat
  | .lexical e => e.line
  | .grammar e => e.line

/-- The lines that the diagnostics of a failure give. -/
def Failure.lines : Failure → List Nat
  | .internal _ => []
  | .syntactic errors => errors.map SyntaxError.line
  | .binding errors => errors.map BindingError.line
  | .runtime error => [error.line]

theorem Grammar.hasLine_of_error {source : String} {reading : Reading}
    (hp : parse (Scan.ofSource source).tokens = .ok reading) {e : GrammarError}
    (he : e ∈ reading.errors) : Source.HasLine source e.line := by
  obtain ⟨f, hf, rfl⟩ := List.mem_map.mp he
  obtain ⟨t, cause, ht, same⟩ := (parse_draws hp).findings f hf
  rw [same]
  exact Source.hasLine_token ht

theorem Bound.hasLine_of_error {globals : List String} {source : String} {reading : Grammar.Reading}
    (hp : Grammar.parse (Scan.ofSource source).tokens = .ok reading) {e : BindingError}
    (he : e ∈ (Bound.ofStatements globals reading.statements).errors) :
    Source.HasLine source e.line := by
  have errors : (Bound.ofStatements globals reading.statements).errors = _ :=
    Stmt.listBindingErrors_eq reading.statements (.topLevel globals)
  rw [errors] at he
  obtain ⟨o, ho, found⟩ := List.mem_filterMap.mp he
  obtain ⟨cause, rfl⟩ := Occurrence.error?_at found
  have stands := Stmt.listOccurrences_stand _ ho
  exact Source.hasLine_token (stands.drawn (Grammar.parse_draws hp).statements)

theorem hasLine_of_refused {globals : List String} {source : String} {reason : Failure}
    (h : compile globals source = .error reason) :
    ∀ line ∈ reason.lines, Source.HasLine source line := by
  intro line hl
  obtain ⟨reading, parsed, rfl | rfl⟩ := compile_eq_refused h
  · obtain ⟨e, he, rfl⟩ := List.mem_map.mp hl
    rcases List.mem_append.mp he with he | he
    · obtain ⟨lexical, member, rfl⟩ := List.mem_map.mp he
      exact Source.hasLine_error member
    · obtain ⟨grammar, member, rfl⟩ := List.mem_map.mp he
      exact Grammar.hasLine_of_error parsed member
  · obtain ⟨e, he, rfl⟩ := List.mem_map.mp hl
    exact Bound.hasLine_of_error parsed he

-- ---------------------------------------------------------------------------
-- Runs of a session
-- ---------------------------------------------------------------------------

/-- An error while a source runs in a session is blamed on an expression that stands in this source
or in one that the session has run before, of the sort that the error tells and with its token on
the line of the error. Errors before a run, and those of a session's first run, are on lines of the
source. -/
theorem errors_point_at_their_cause {sources : List String} {s : Session} (hs : s.HasRun sources)
    (n : Nat) (source : String) :
    (∀ e s', s.run n source = (.failure (.runtime e), s') →
      ∃ origin ∈ source :: sources, Source.HasLine origin e.line ∧
        ∃ x, Source.Contains origin x ∧ x.BlamedFor e) ∧
    ∀ reason s', s.run n source = (.failure reason, s') →
      (∀ e, reason ≠ .runtime e) ∨ sources = [] →
      ∀ line ∈ reason.lines, Source.HasLine source line := by
  have blamed {e : RuntimeError} {s' : Session} (h : s.run n source = (.failure (.runtime e), s')) :
      ∃ origin ∈ source :: sources, Source.HasLine origin e.line ∧
        ∃ x, Source.Contains origin x ∧ x.BlamedFor e := by
    obtain ⟨origin, member, x, contains, blamed⟩ := hs.blamed h
    obtain ⟨t, ht, same⟩ := blamed.line
    exact ⟨origin, member, same ▸ contains.hasLine ht, x, contains, blamed⟩
  refine ⟨fun e s' => blamed, fun reason s' h early line hl => ?_⟩
  obtain ⟨e, rfl⟩ | ⟨refused, -⟩ := Session.run_eq_failure h
  · -- the first run of a session has no other source to blame
    obtain rfl := early.resolve_left fun never => never e rfl
    obtain rfl := List.mem_singleton.mp hl
    obtain ⟨origin, member, lines, -⟩ := blamed h
    obtain rfl := List.mem_singleton.mp member
    exact lines
  · exact hasLine_of_refused refused line hl

def declaresNegation : String :=
  "\nfun f() \x7b -nil; \x7d"

/-- The error of a call is blamed on the source of the function, since the call has no second
line. -/
theorem errors_point_at_their_cause_earlier :
    let s := ((Session.start (.buffer "") fun _ => 0).run 9 declaresNegation).2
    (s.run 9 "f();").1 = .failure (.runtime ⟨2, .operandNotNumber⟩) ∧
      ∃ x, Source.Contains declaresNegation x ∧ x.BlamedFor ⟨2, .operandNotNumber⟩ := by
  have failed :
      (((Session.start (.buffer "") fun _ => 0).run 9 declaresNegation).2.run 9 "f();").1 =
      .failure (.runtime ⟨2, .operandNotNumber⟩) := by decide +kernel
  intro s
  refine ⟨failed, ?_⟩
  have ran : s.HasRun [declaresNegation] := .run 9 declaresNegation (.start _ _)
  obtain ⟨origin, member, lines, blamed⟩ :=
    (errors_point_at_their_cause ran 9 "f();").1 _ _ (Prod.ext failed rfl)
  rcases List.mem_cons.mp member with rfl | member
  · exact absurd lines.2 (by decide)
  · obtain rfl := List.mem_singleton.mp member
    exact blamed

end Lox
