import Lox.Proofs.Grammar.Placement
import Lox.Proofs.Grammar.Spending
import Lox.Proofs.Syntax.Nodes

/-!
# Where the tokens of a tree come from

Reading makes no tokens: those that a tree keeps, those that stand for its constants, and those that
errors are reported at, are in the list that is read. And each expression is built on a token of a
kind that it can do with, since the rule that builds it has looked at the kind. This holds of every
list of tokens, and also of the statements that are read beside others with errors (`parse_draws`).
-/

namespace Lox

/-- The constant of a token with the property, or of a loop that has no condition. -/
def Constant.From (T : Token → Prop) (value : Constant) : Prop :=
  value = .boolean true ∨ ∃ t, T t ∧ Constant.ofToken? t = some value

/-- All expressions have tokens of their kinds, and all tokens the property: those that expressions
keep, those whose constants they are and those of `keys`. -/
structure Drawn (T : Token → Prop) (nodes : List Expr) (keys : List Token) : Prop where
  kinded : ∀ x ∈ nodes, x.Kinded
  token : ∀ x ∈ nodes, ∀ t ∈ x.token?, T t
  constant : ∀ x ∈ nodes, ∀ value ∈ x.constant?, value.From T
  key : ∀ t ∈ keys, T t

namespace Drawn

variable {T : Token → Prop} {nodes more : List Expr} {keys others : List Token} {x : Expr}

theorem nil : Drawn T [] [] := by
  constructor <;> simp

theorem append (h : Drawn T nodes keys) (h' : Drawn T more others) :
    Drawn T (nodes ++ more) (keys ++ others) := by
  constructor
  · simpa [or_imp, forall_and] using ⟨h.kinded, h'.kinded⟩
  · simpa [or_imp, forall_and] using ⟨h.token, h'.token⟩
  · simpa [or_imp, forall_and] using ⟨h.constant, h'.constant⟩
  · simpa [or_imp, forall_and] using ⟨h.key, h'.key⟩

theorem literal {value : Constant} (h : value.From T) : Drawn T [.literal value] [] := by
  constructor <;> simp [Expr.Kinded, Expr.token?, Expr.constant?, h]

theorem cons (hx : x.Kinded) (ht : ∀ t ∈ x.token?, T t) (hc : x.constant? = none)
    (h : Drawn T nodes keys) : Drawn T (x :: nodes) keys := by
  constructor
  · simpa using ⟨hx, h.kinded⟩
  · simpa using ⟨ht, h.token⟩
  · simpa [hc] using h.constant
  · exact h.key

theorem withKeys (h : Drawn T nodes []) (hk : ∀ t ∈ keys, T t) : Drawn T nodes keys :=
  ⟨h.kinded, h.token, h.constant, hk⟩

end Drawn

namespace Grammar

variable {α β : Type} {T : Token → Prop}

def Finding.From (T : Token → Prop) (f : Finding) : Prop :=
  ∃ t cause, T t ∧ f.error = GrammarError.at t cause

/-- A value with its property, and tokens with theirs: those that are left and those of errors. -/
def Reply.From (T : Token → Prop) (P : α → Prop) : Reply α → Prop
  | .read value rest findings => P value ∧ (∀ t ∈ rest, T t) ∧ ∀ f ∈ findings, f.From T
  | .stuck rest findings => (∀ t ∈ rest, T t) ∧ ∀ f ∈ findings, f.From T
  | .broken _ => True

theorem Reply.From.after {P : α → Prop} {r : Reply α} (h : r.From T P) {earlier : List Finding}
    (he : ∀ f ∈ earlier, f.From T) : (r.after earlier).From T P := by
  cases r with
  | read value rest findings =>
    obtain ⟨hv, hr, hf⟩ := h
    exact ⟨hv, hr, by simpa [or_imp, forall_and] using ⟨he, hf⟩⟩
  | stuck rest findings =>
    obtain ⟨hr, hf⟩ := h
    exact ⟨hr, by simpa [or_imp, forall_and] using ⟨he, hf⟩⟩
  | broken fault => trivial

namespace Rule

/-- From tokens with a property the rule reads values with another. -/
def Draws (T : Token → Prop) (P : α → Prop) (rule : Rule α) : Prop :=
  ∀ tokens, (∀ t ∈ tokens, T t) → (rule tokens).From T P

def DrawsAt (T : Token → Prop) (P : α → Prop) (first : Token) (rule : Rule α) : Prop :=
  ∀ rest, T first → (∀ t ∈ rest, T t) → (rule (first :: rest)).From T P

variable {P : α → Prop} {Q : β → Prop}

theorem Draws.at {x : Rule α} (hx : x.Draws T P) (first : Token) : x.DrawsAt T P first := by
  intro rest hf hr
  apply hx
  simpa using ⟨hf, hr⟩

theorem Draws.pure {value : α} (h : P value) : Draws T P (Pure.pure value) := by
  intro tokens ht
  exact ⟨h, ht, by simp⟩

theorem Draws.fail (fault : Fault) : Draws T P (fail fault) :=
  fun _ _ => trivial

theorem Draws.note {f : Finding} (h : f.From T) : Draws T (fun _ => True) (note f) := by
  intro tokens ht
  exact ⟨trivial, ht, by simpa using h⟩

theorem Draws.bind {x : Rule α} {f : α → Rule β} (hx : x.Draws T P)
    (hf : ∀ a, P a → (f a).Draws T Q) : (x >>= f).Draws T Q := by
  intro tokens ht
  have first := hx tokens ht
  rw [bind_apply]
  cases hr : x tokens with
  | read a rest findings =>
    rw [hr] at first
    obtain ⟨ha, left, found⟩ := first
    exact (hf a ha rest left).after found
  | stuck rest findings =>
    rw [hr] at first
    exact first
  | broken fault => trivial

theorem Draws.ite {c : Prop} [Decidable c] {x y : Rule α} (hx : c → x.Draws T P)
    (hy : ¬ c → y.Draws T P) : (if c then x else y).Draws T P := by
  split
  · next h => exact hx h
  · next h => exact hy h

theorem DrawsAt.ite {first : Token} {c : Prop} [Decidable c] {x y : Rule α}
    (hx : c → x.DrawsAt T P first) (hy : ¬ c → y.DrawsAt T P first) :
    (if c then x else y).DrawsAt T P first := by
  split
  · next h => exact hx h
  · next h => exact hy h

theorem DrawsAt.advance {first : Token} {f : Token → Rule α} (hf : T first → (f first).Draws T P) :
    (advance >>= f).DrawsAt T P first := by
  intro rest ht hr
  rw [advance_bind]
  apply hf ht
  split
  · simpa using ⟨ht, hr⟩
  · exact hr

theorem Draws.of_at {x : Rule α} (empty : (x []).From T P) (hx : ∀ t, x.DrawsAt T P t) :
    x.Draws T P := by
  intro tokens ht
  cases tokens with
  | nil => exact empty
  | cons t rest => exact hx t rest (ht t (by simp)) fun u hu => ht u (by simp [hu])

theorem Draws.peek {f : Token → Rule α} (hf : ∀ t, (f t).DrawsAt T P t) :
    (peek >>= f).Draws T P := by
  refine .of_at trivial fun t rest ht hr => ?_
  rw [peek_bind]
  exact hf t rest ht hr

theorem Draws.advance : Draws T T advance := by
  refine .of_at trivial fun t rest ht hr => ⟨ht, ?_, by simp⟩
  split
  · simpa using ⟨ht, hr⟩
  · exact hr

theorem Draws.finding (cause : GrammarCause) : Draws T (Finding.From T) (finding cause) := by
  refine .of_at trivial fun t rest ht hr => ⟨⟨t, cause, ht, rfl⟩, ?_, by simp⟩
  simpa using ⟨ht, hr⟩

theorem Draws.check (kind : Kind) : Draws T (fun _ => True) (check kind) :=
  .peek fun t => Draws.at (.pure trivial) t

theorem Draws.stuck (cause : GrammarCause) : Draws T P (stuck cause) := by
  refine .of_at trivial fun t rest ht hr => ⟨?_, ?_⟩
  · simpa using ⟨ht, hr⟩
  · simpa using ⟨t, cause, ht, rfl⟩

theorem Draws.expect (kind : Kind) (what : String) :
    Draws T (fun t => T t ∧ t.kind = kind) (expect kind what) := by
  refine .of_at trivial fun t rest ht hr => ?_
  rw [expect_cons]
  split
  · next hk =>
    have taken := Draws.advance.at t rest ht hr
    exact ⟨⟨ht, hk⟩, taken.2⟩
  · exact Draws.stuck _ _ (by simpa using ⟨ht, hr⟩)

theorem Draws.noteHereIf (wrong : Bool) (cause : GrammarCause) :
    Draws T (fun _ => True) (noteHereIf wrong cause) :=
  .ite (fun _ => .bind (.finding cause) fun _ found => .note found) fun _ => .pure trivial

theorem Draws.unlessAt {x : Rule α} {kind : Kind} {absent : α} (ha : P absent) (hx : x.Draws T P) :
    (unlessAt kind absent x).Draws T P :=
  .bind (.check kind) fun _ _ => .ite (fun _ => .pure ha) fun _ => hx

theorem Draws.following {x : Rule α} (kind : Kind) (hx : x.Draws T P) :
    (following kind x).Draws T fun o => ∀ a ∈ o, P a := by
  refine .bind (.check kind) fun _ _ => .ite (fun _ => ?_) fun _ => .pure (by simp)
  refine .bind .advance fun _ _ => .bind hx fun a ha => .pure ?_
  simpa using ha

end Rule

open Rule (Draws)

-- ---------------------------------------------------------------------------
-- Expressions
-- ---------------------------------------------------------------------------

abbrev DrawnExpr (T : Token → Prop) (e : Expr) : Prop :=
  Drawn T e.nodes []

abbrev DrawnExprs (T : Token → Prop) (es : List Expr) : Prop :=
  Drawn T (Expr.listNodes es) []

theorem DrawnExpr.join {level : Level} {left right : Expr} {operator : Token}
    (hl : DrawnExpr T left) (ho : T operator) (hk : level.operates operator.kind)
    (hr : DrawnExpr T right) : DrawnExpr T (level.join left operator right) := by
  have inner := hl.append hr
  cases level with
  | disjunction | conjunction =>
    refine inner.cons ?_ (by simpa [Expr.token?] using ho) rfl
    revert hk
    simp only [Expr.Kinded]
    cases operator.kind <;> simp [Level.operates]
  | equality | comparison | term | factor =>
    refine inner.cons ?_ (by simpa [Expr.token?] using ho) rfl
    revert hk
    simp only [Expr.Kinded]
    cases operator.kind <;> simp [Level.operates, Kind.binaryOperators]

mutual

theorem draws_expression : ∀ n : Nat, (expression n).Draws T (DrawnExpr T)
  | 0 => .fail _
  | n + 1 => by
    refine .bind (draws_operation n _) fun left hl => .bind (.check _) fun _ _ => ?_
    refine .ite (fun _ => ?_) fun _ => .pure hl
    refine .bind (.finding _) fun wrong hw => .bind .advance fun _ _ => ?_
    refine .bind (draws_expression n) fun value hv => ?_
    cases left with
    | «variable» name depth =>
      -- the name of an assignment is that of the variable in its place
      have kind := hl.kinded _ (Expr.mem_nodes_self _)
      have own := hl.token _ (Expr.mem_nodes_self _)
      exact .pure (hv.cons kind own rfl)
    | _ => exact .bind (.note hw) fun _ _ => .pure hl

theorem draws_operation : ∀ (n : Nat) (levels : List Level),
    (operation n levels).Draws T (DrawnExpr T)
  | 0, _ => .fail _
  | n + 1, [] => draws_unary n
  | n + 1, level :: tighter =>
    .bind (draws_operation n tighter) fun _ hl => draws_operationRest n level tighter hl

theorem draws_operationRest : ∀ (n : Nat) (level : Level) (tighter : List Level) {left : Expr},
    DrawnExpr T left → (operationRest n level tighter left).Draws T (DrawnExpr T)
  | 0, _, _, _, _ => .fail _
  | n + 1, level, tighter, left, hl => by
    refine .peek fun next => .ite (fun operates => ?_) fun _ => Draws.at (.pure hl) next
    refine .advance fun hn => .bind (draws_operation n tighter) fun right hr => ?_
    exact draws_operationRest n level tighter (hl.join hn operates hr)

theorem draws_unary : ∀ n : Nat, (unary n).Draws T (DrawnExpr T)
  | 0 => .fail _
  | n + 1 => by
    refine .peek fun next => .ite (fun operates => ?_) fun _ => ?_
    · refine .advance fun hn => .bind (draws_unary n) fun operand ho => .pure ?_
      refine ho.cons ?_ (by simpa [Expr.token?] using hn) rfl
      revert operates
      simp only [Expr.Kinded]
      cases next.kind <;> simp [isUnary]
    · exact Draws.at (.bind (draws_primary n) fun callee hc => draws_callRest n hc) next

theorem draws_callRest : ∀ (n : Nat) {callee : Expr},
    DrawnExpr T callee → (callRest n callee).Draws T (DrawnExpr T)
  | 0, _, _ => .fail _
  | n + 1, callee, hc => by
    refine .bind (.check _) fun _ _ => .ite (fun _ => ?_) fun _ => .pure hc
    refine .bind .advance fun _ _ => ?_
    refine .bind (.unlessAt .nil (draws_arguments n 0)) fun given hg => ?_
    refine .bind (.expect _ _) fun paren hp => draws_callRest n ?_
    exact (hc.append hg).cons hp.2 (by simpa [Expr.token?] using hp.1) rfl

theorem draws_arguments : ∀ n count : Nat, (arguments n count).Draws T (DrawnExprs T)
  | 0, _ => .fail _
  | n + 1, count => by
    refine .bind (.noteHereIf _ _) fun _ _ => .bind (draws_expression n) fun first hf => ?_
    refine .bind (.check _) fun _ _ => .ite (fun _ => ?_) fun _ => .pure (hf.append .nil)
    exact .bind .advance fun _ _ => .bind (draws_arguments n _) fun rest hr => .pure (hf.append hr)

theorem draws_primary : ∀ n : Nat, (primary n).Draws T (DrawnExpr T)
  | 0 => .fail _
  | n + 1 => by
    refine .peek fun next => .ite (fun _ => ?_) fun _ => .ite (fun named => ?_) fun _ =>
      .ite (fun _ => ?_) fun _ => Draws.at (.stuck _) next
    · refine .advance fun hn => ?_
      split
      · next value stands => exact .pure (.literal (.inr ⟨next, hn, stands⟩))
      · exact .fail _
    · exact .advance fun hn => .pure (Drawn.nil.cons named (by simpa [Expr.token?] using hn) rfl)
    · refine .advance fun _ => .bind (draws_expression n) fun inner hi => ?_
      exact .bind (.expect _ _) fun _ _ => .pure (hi.cons trivial (by simp [Expr.token?]) rfl)

end

-- ---------------------------------------------------------------------------
-- Statements
-- ---------------------------------------------------------------------------

abbrev DrawnStmt (T : Token → Prop) (t : Stmt) : Prop :=
  Drawn T t.nodes t.keys

abbrev DrawnStmts (T : Token → Prop) (ts : List Stmt) : Prop :=
  Drawn T (Stmt.listNodes ts) (Stmt.listKeys ts)

theorem draws_parameters : ∀ n count : Nat,
    (parameters n count).Draws T fun names => ∀ t ∈ names, T t
  | 0, _ => .fail _
  | n + 1, count => by
    refine .bind (.noteHereIf _ _) fun _ _ => .bind (.expect _ _) fun first hf => ?_
    refine .bind (.check _) fun _ _ => .ite (fun _ => ?_) fun _ => .pure (by simpa using hf.1)
    refine .bind .advance fun _ _ => .bind (draws_parameters n _) fun rest hr => .pure ?_
    simpa using ⟨hf.1, hr⟩

theorem draws_optionalBefore (kind : Kind) (n : Nat) :
    (optionalBefore kind n).Draws T fun value => ∀ e ∈ value, DrawnExpr T e := by
  refine .unlessAt (by simp) (.bind (draws_expression n) fun e he => .pure ?_)
  simpa using he

theorem draws_variableRest (n : Nat) : (variableRest n).Draws T (DrawnStmt T) := by
  refine .bind (.expect _ _) fun name hn => ?_
  refine .bind (.following _ (draws_expression n)) fun initializer hi => ?_
  refine .bind (.expect _ _) fun _ _ => .pure ?_
  have key : ∀ t ∈ [name], T t := by simpa using hn.1
  cases initializer with
  | none => exact Drawn.nil.withKeys key
  | some e => exact (hi e rfl).withKeys key

theorem draws_expressionStatement (n : Nat) : (expressionStatement n).Draws T (DrawnStmt T) :=
  .bind (draws_expression n) fun _ he => .bind (.expect _ _) fun _ _ => .pure he

theorem draws_firstClause (n : Nat) :
    (firstClause n).Draws T fun clause => ∀ t ∈ clause, DrawnStmt T t := by
  have wrapped {x : Rule Stmt} (hx : x.Draws T (DrawnStmt T)) :
      (some <$> x).Draws T fun clause => ∀ t ∈ clause, DrawnStmt T t :=
    .bind hx fun t ht => .pure (by simpa using ht)
  refine .peek fun next => .ite (fun _ => ?_) fun _ => .ite (fun _ => ?_) fun _ => ?_
  · exact .advance fun _ => .pure (by simp)
  · exact .advance fun _ => wrapped (draws_variableRest n)
  · exact Draws.at (wrapped (draws_expressionStatement n)) next

theorem drawn_forLoop {initializer : Option Stmt} {condition increment : Option Expr} {body : Stmt}
    (hi : ∀ t ∈ initializer, DrawnStmt T t) (hc : ∀ e ∈ condition, DrawnExpr T e)
    (hn : ∀ e ∈ increment, DrawnExpr T e) (hb : DrawnStmt T body) :
    DrawnStmt T (forLoop initializer condition increment body) := by
  have test : DrawnExpr T (condition.getD (.literal (.boolean true))) := by
    cases condition with
    | some e => exact hc e rfl
    | none => exact .literal (.inl rfl)
  have looped {body : Stmt} (hb : DrawnStmt T body) :
      DrawnStmt T (forLoop initializer condition none body) := by
    have loop := test.append hb
    cases initializer with
    | some first => exact (hi first rfl).append (loop.append .nil)
    | none => exact loop
  cases increment with
  | some e =>
    have stepped : DrawnStmt T (.block [body, .expression e]) := hb.append ((hn e rfl).append .nil)
    exact looped stepped
  | none => exact looped hb

mutual

theorem draws_declaration : ∀ n : Nat, (declaration n).Draws T (DrawnStmt T)
  | 0 => .fail _
  | n + 1 => by
    refine .peek fun next => .ite (fun _ => ?_) fun _ => .ite (fun _ => ?_) fun _ => ?_
    · exact .advance fun _ => draws_functionRest n
    · exact .advance fun _ => draws_variableRest n
    · exact Draws.at (draws_statement n) next

theorem draws_functionRest : ∀ n : Nat, (functionRest n).Draws T (DrawnStmt T)
  | 0 => .fail _
  | n + 1 => by
    refine .bind (.expect _ _) fun name hn => .bind (.expect _ _) fun _ _ => ?_
    refine .bind (.unlessAt (by simp) (draws_parameters n 0)) fun names hs => ?_
    refine .bind (.expect _ _) fun _ _ => .bind (.expect _ _) fun _ _ => ?_
    refine .bind (draws_blockRest n) fun body hb => .pure ?_
    have head : Drawn T [] (name :: names) := Drawn.nil.withKeys (by simpa using ⟨hn.1, hs⟩)
    exact head.append hb

theorem draws_statement : ∀ n : Nat, (statement n).Draws T (DrawnStmt T)
  | 0 => .fail _
  | n + 1 => by
    refine .peek fun next => ?_
    split
    · exact .advance fun _ => draws_forRest n
    · exact .advance fun _ => draws_ifRest n
    · refine .advance fun _ => .bind (draws_expression n) fun value hv => ?_
      exact .bind (.expect _ _) fun _ _ => .pure hv
    · refine .advance fun hk => .bind (draws_optionalBefore _ n) fun value hv => ?_
      refine .bind (.expect _ _) fun _ _ => .pure ?_
      have keyword : ∀ t ∈ [next], T t := by simpa using hk
      cases value with
      | none => exact Drawn.nil.withKeys keyword
      | some e => exact (hv e rfl).withKeys keyword
    · refine .advance fun _ => .bind (.expect _ _) fun _ _ => ?_
      refine .bind (draws_expression n) fun condition hc => .bind (.expect _ _) fun _ _ => ?_
      exact .bind (draws_statement n) fun body hb => .pure (hc.append hb)
    · exact .advance fun _ => .bind (draws_blockRest n) fun _ hb => .pure hb
    · exact Draws.at (draws_expressionStatement n) next

theorem draws_forRest : ∀ n : Nat, (forRest n).Draws T (DrawnStmt T)
  | 0 => .fail _
  | n + 1 => by
    refine .bind (.expect _ _) fun _ _ => .bind (draws_firstClause n) fun initializer hi => ?_
    refine .bind (draws_optionalBefore _ n) fun condition hc => .bind (.expect _ _) fun _ _ => ?_
    refine .bind (draws_optionalBefore _ n) fun increment hn => .bind (.expect _ _) fun _ _ => ?_
    exact .bind (draws_statement n) fun body hb => .pure (drawn_forLoop hi hc hn hb)

theorem draws_ifRest : ∀ n : Nat, (ifRest n).Draws T (DrawnStmt T)
  | 0 => .fail _
  | n + 1 => by
    refine .bind (.expect _ _) fun _ _ => .bind (draws_expression n) fun condition hc => ?_
    refine .bind (.expect _ _) fun _ _ => .bind (draws_statement n) fun consequent hs => ?_
    refine .bind (.following _ (draws_statement n)) fun alternative ha => .pure ?_
    cases alternative with
    | none => exact hc.append hs
    | some other => exact (hc.append hs).append (ha other rfl)

theorem draws_blockRest : ∀ n : Nat, (blockRest n).Draws T (DrawnStmts T)
  | 0 => .fail _
  | n + 1 => by
    refine .peek fun next => .ite (fun _ => ?_) fun _ => ?_
    · exact Draws.at (.bind (.expect _ _) fun _ _ => .pure .nil) next
    · refine Draws.at (.bind (draws_declaration n) fun first hf => ?_) next
      exact .bind (draws_blockRest n) fun rest hr => .pure (hf.append hr)

end

-- ---------------------------------------------------------------------------
-- Programs
-- ---------------------------------------------------------------------------

structure Reading.From (T : Token → Prop) (r : Reading) : Prop where
  statements : DrawnStmts T r.statements
  findings : ∀ f ∈ r.findings, f.From T

theorem Reading.From.cons {r : Reading} (hr : r.From T) {statement : Option Stmt}
    (hs : ∀ t ∈ statement, DrawnStmt T t) {findings : List Finding}
    (hf : ∀ f ∈ findings, f.From T) :
    (Reading.cons statement findings r).From T where
  statements := by
    cases statement with
    | none => exact hr.statements
    | some t => exact (hs t rfl).append hr.statements
  findings := by simpa [Reading.cons, or_imp, forall_and] using ⟨hf, hr.findings⟩

theorem program_draws {n : Nat} {tokens : List Token} (ht : ∀ t ∈ tokens, T t) {reading : Reading}
    (h : program n tokens = .ok reading) : reading.From T := by
  fun_induction program n tokens generalizing reading with
  | case1 | case2 => cases h
  | case3 n t rest atEnd =>
    cases h
    exact ⟨.nil, by simp [Reading.empty]⟩
  | case4 n t rest _ first after findings hd ih =>
    obtain ⟨r, hr, rfl⟩ := program_map_eq_ok h
    have drawn := draws_declaration n _ ht
    rw [hd] at drawn
    obtain ⟨hs, left, found⟩ := drawn
    exact (ih left hr).cons (by simpa using hs) found
  | case5 n t rest _ stop findings hd after hs ih =>
    obtain ⟨r, hr, rfl⟩ := program_map_eq_ok h
    have drawn := draws_declaration n _ ht
    rw [hd] at drawn
    obtain ⟨left, found⟩ := drawn
    exact (ih (fun t ht => left t ((synchronize_suffix hs).mem ht)) hr).cons (by simp) found
  | case6 | case7 => cases h

/-- All that is read from tokens, and all that is reported about them, is built on these tokens. -/
theorem parse_draws {tokens : List Token} {reading : Reading} (h : parse tokens = .ok reading) :
    reading.From (· ∈ tokens) :=
  program_draws (fun _ ht => ht) h

end Grammar

end Lox
