import Lox.Proofs.Grammar.Operands

/-!
# Every program of the grammar is read

Statements that are written out are read as themselves, each optional part decided by the one token
that stands where it would start. What may not stand behind a statement is an `else` that an `if` at
its end could have.
-/

namespace Lox.Grammar

open Rule (Accepts Begins)

-- ---------------------------------------------------------------------------
-- Statements
-- ---------------------------------------------------------------------------

/-- The kinds of token that may stand behind a statement. -/
def Behind (s : Stmt) (kind : Kind) : Prop :=
  s.endsOpen → kind ≠ .kwElse

theorem stmt_spelling_eq_cons {s : Stmt} (h : s.Shaped) : ∃ mark more, s.spelling = mark :: more ∧
    mark.kind ∉ [.kwElse, .rightBrace, .eof] ∧
    (s.declared? = none → mark.kind ∉ [.kwFun, .kwVar]) := by
  cases s with
  | expression value =>
    obtain ⟨mark, more, same, starts⟩ := expr_spelling_eq_cons (e := value) h
    refine ⟨mark, _, by rw [Stmt.spelling, same, List.cons_append], ?_⟩
    generalize mark.kind = kind at starts
    cases kind <;> simp_all [Starts, isLiteral, isUnary]
  | «return» keyword value =>
    have hk : keyword.kind = .kwReturn := h.1
    cases value <;> exact ⟨.own keyword, _, rfl, by simp [Mark.kind, hk]⟩
  | «variable» name value => cases value <;> exact ⟨_, _, rfl, by decide, by simp [Stmt.declared?]⟩
  | function name parameters body => exact ⟨_, _, rfl, by decide, by simp [Stmt.declared?]⟩
  | branch condition consequent alternative =>
    cases alternative <;> exact ⟨_, _, rfl, by decide, fun _ => by decide⟩
  | print | block | loop => exact ⟨_, _, rfl, by decide, fun _ => by decide⟩

theorem begins_stmts {ss : List Stmt} {more : List Mark} {stop : Kind → Prop} (s : Stmt)
    (hs : Stmt.ListShaped ss) (begins : Begins (Behind s) more stop) :
    Begins (Behind s) (Stmt.listSpelling ss ++ more) stop := by
  cases ss with
  | nil => exact begins
  | cons first rest =>
    obtain ⟨mark, others, same, starts, -⟩ := stmt_spelling_eq_cons hs.1
    rw [Stmt.listSpelling, same]
    exact fun _ he => starts (by simp [he])

def ReadsStatement (s : Stmt) : Prop :=
  ∀ n, 20 * s.spelling.length + 11 ≤ n → Accepts (Behind s) (statement n) s.spelling s.unbound

def ReadsDeclaration (s : Stmt) : Prop :=
  ∀ n, 20 * s.spelling.length + 12 ≤ n → Accepts (Behind s) (declaration n) s.spelling s.unbound

structure ReadableStmt (s : Stmt) : Prop where
  inner : s.declared? = none → ReadsStatement s
  declaration : ReadsDeclaration s

theorem ReadsStatement.readable {s : Stmt} (h : ReadsStatement s) (hs : s.Shaped)
    (inner : s.declared? = none) : ReadableStmt s := by
  refine ⟨fun _ => h, ?_⟩
  rintro (_ | n) hn
  · omega
  · obtain ⟨mark, more, same, -, starts⟩ := stmt_spelling_eq_cons hs
    have begins : Begins (· ∉ [.kwFun, .kwVar]) s.spelling (Behind s) :=
      same ▸ .intro (starts inner)
    refine .peek begins fun t ht => ?_
    have plain : t.kind ≠ .kwFun ∧ t.kind ≠ .kwVar := by simpa using ht
    rw [if_neg plain.1, if_neg plain.2]
    exact h n (by omega)

theorem ReadsDeclaration.readable {s : Stmt} (h : ReadsDeclaration s)
    (declared : s.declared? ≠ none) : ReadableStmt s :=
  ⟨fun inner => absurd inner declared, h⟩

theorem readsStatement_expression {value : Expr} (h : value.Shaped) :
    ReadsStatement (.expression value) := by
  rintro (_ | n) hn
  · omega
  · rw [Stmt.spelling, List.length_append] at hn
    have read : Accepts (Behind (.expression value)) (expressionStatement n)
        (Stmt.expression value).spelling (Stmt.expression value).unbound := by
      refine ((readable_expr h).expression n (by omega)).bind (.intro (by decide)) ?_
      exact .expect (by decide) _ (.any .semicolon) rfl fun _ _ => .pure
    refine .peek (P := Starts) (begins_expr h (fun _ starts => starts) _) fun t ht => ?_
    cases hk : t.kind with
    | kwFor | kwIf | kwPrint | kwReturn | kwWhile | leftBrace =>
      rw [hk] at ht
      exact absurd ht (by decide)
    | _ => exact read

theorem readsStatement_print {value : Expr} (h : value.Shaped) : ReadsStatement (.print value) := by
  rintro (_ | n) hn
  · omega
  · rw [Stmt.spelling, List.length_append, List.length_cons] at hn
    refine .peek (P := (· = .kwPrint)) rfl fun t ht => ?_
    rw [ht]
    refine .advance (.any .kwPrint) (by decide) fun _ _ => ?_
    refine ((readable_expr h).expression n (by omega)).bind (.intro (by decide)) ?_
    exact .expect (by decide) _ (.any .semicolon) rfl fun _ _ => .pure

theorem readsStatement_return {keyword : Token} {value : Option Expr}
    (hk : keyword.kind = .kwReturn)
    (h : ∀ e ∈ value, e.Shaped) : ReadsStatement (.return keyword value) := by
  rintro (_ | n) hn
  · omega
  · have given : ∃ marks, (Stmt.return keyword value).spelling =
          .own keyword :: (marks ++ [.any .semicolon]) ∧
        Accepts (· = .semicolon) (optionalBefore .semicolon n) marks (value.map Expr.unbound) := by
      cases value with
      | none => exact ⟨[], rfl, .present (fun _ h => h) .pure⟩
      | some e =>
        rw [Stmt.spelling, List.length_append, List.length_cons] at hn
        have read := (readable_expr (h e rfl)).expression n (by omega)
        have begins : Begins (· ≠ .semicolon) e.spelling (· = .semicolon) := by
          simpa using begins_expr_ne (h e rfl) (by decide) []
        exact ⟨e.spelling, by simp [Stmt.spelling],
          .absent begins (.last (read.before (by decide)) .pure)⟩
    obtain ⟨marks, same, read⟩ := given
    rw [same]
    refine .peek (P := (· = .kwReturn)) hk fun t ht => ?_
    rw [ht]
    refine .advance (.own keyword) (by simp [Mark.kind, hk]) ?_
    rintro _ rfl
    refine read.bind (.intro rfl) ?_
    exact .expect (by decide) _ (.any .semicolon) rfl fun _ _ => .pure

theorem readsDeclaration_variable {name : Token} {value : Option Expr}
    (hn : name.kind = .identifier) (h : ∀ e ∈ value, e.Shaped) :
    ReadsDeclaration (.variable name value) := by
  rintro (_ | n) steps
  · omega
  · have initial : ∃ marks, (Stmt.variable name value).spelling =
          .any .kwVar :: .own name :: (marks ++ [.any .semicolon]) ∧
        Accepts (· = .semicolon) (Rule.following .equal (expression n)) marks
          (value.map Expr.unbound) := by
      cases value with
      | none =>
        refine ⟨[], rfl, .absent ?_ .pure⟩
        rintro _ rfl
        decide
      | some e =>
        simp only [Stmt.spelling, List.length_append, List.length_cons] at steps
        have read := (readable_expr (h e rfl)).expression n (by omega)
        exact ⟨.any .equal :: e.spelling, by simp [Stmt.spelling],
          .following (by decide) (read.before (by decide))⟩
    obtain ⟨marks, same, read⟩ := initial
    rw [same]
    refine .peek (P := (· = .kwVar)) rfl fun t ht => ?_
    rw [ht]
    refine .advance (.any .kwVar) (by decide) fun _ _ => .expect (by decide) _ (.own name) hn ?_
    rintro _ rfl
    refine read.bind (.intro rfl) ?_
    exact .expect (by decide) _ (.any .semicolon) rfl fun _ _ => .pure

theorem readsStatement_loop {condition : Expr} {body : Stmt} (hc : condition.Shaped)
    (hb : ReadsStatement body) : ReadsStatement (.loop condition body) := by
  rintro (_ | n) hn
  · omega
  · have marks : (Stmt.loop condition body).spelling = .any .kwWhile :: .any .leftParen ::
        (condition.spelling ++ .any .rightParen :: body.spelling) := by simp [Stmt.spelling]
    rw [marks] at hn ⊢
    simp only [List.length_append, List.length_cons] at hn
    refine .peek (P := (· = .kwWhile)) rfl fun t ht => ?_
    rw [ht]
    refine .advance (.any .kwWhile) (by decide) fun _ _ => ?_
    refine .expect (by decide) _ (.any .leftParen) rfl fun _ _ => ?_
    refine ((readable_expr hc).expression n (by omega)).bind (.intro (by decide)) ?_
    refine .expect (by decide) _ (.any .rightParen) rfl fun _ _ => ?_
    exact .last (hb n (by omega)) .pure

/-- What stands behind the first statement of a branch, an `else` or nothing of the branch, leaves
that statement alone and is read. -/
theorem accepts_alternative (condition : Expr) {consequent : Stmt} {alternative : Option Stmt}
    (n : Nat)
    (he : ∀ s ∈ alternative, consequent.endsOpen = false ∧ 20 * s.spelling.length + 11 ≤ n ∧
      ReadsStatement s) :
    let s := Stmt.branch condition consequent alternative
    ∃ marks otherwise, s.spelling = .any .kwIf :: .any .leftParen ::
        (condition.spelling ++ .any .rightParen :: (consequent.spelling ++ marks)) ∧
      s.unbound = .branch condition.unbound consequent.unbound otherwise ∧
      Begins (Behind consequent) marks (Behind s) ∧
      Accepts (Behind s) (Rule.following .kwElse (statement n)) marks otherwise := by
  cases alternative with
  | none =>
    refine ⟨[], none, by simp [Stmt.spelling], by rw [Stmt.unbound],
      fun _ behind _ => behind rfl, ?_⟩
    exact .absent (fun _ behind => behind rfl) .pure
  | some s =>
    obtain ⟨closed, steps, read⟩ := he s rfl
    refine ⟨.any .kwElse :: s.spelling,
      some s.unbound, by simp [Stmt.spelling], by rw [Stmt.unbound],
      .intro fun isOpen => ?_, .following (by decide) (read n steps)⟩
    cases closed.symm.trans isOpen

theorem readsStatement_branch {condition : Expr} {consequent : Stmt} {alternative : Option Stmt}
    (hc : condition.Shaped) (read : ReadsStatement consequent)
    (he : ∀ s ∈ alternative, consequent.endsOpen = false ∧ ReadsStatement s) :
    ReadsStatement (.branch condition consequent alternative) := by
  rintro (_ | _ | n) hn
  · omega
  · omega
  · have bounded : ∀ s ∈ alternative, consequent.endsOpen = false ∧
        20 * s.spelling.length + 11 ≤ n ∧ ReadsStatement s := by
      intro s hs
      obtain ⟨closed, readElse⟩ := he s hs
      cases hs
      simp only [Stmt.spelling, List.length_append, List.length_cons] at hn
      exact ⟨closed, by omega, readElse⟩
    obtain ⟨marks, otherwise, same, unbound, begins, readElse⟩ :=
      accepts_alternative condition n bounded
    rw [same] at hn ⊢
    rw [unbound]
    simp only [List.length_append, List.length_cons] at hn
    refine .peek (P := (· = .kwIf)) rfl fun t ht => ?_
    rw [ht]
    refine .advance (.any .kwIf) (by decide) fun _ _ => ?_
    refine .expect (by decide) _ (.any .leftParen) rfl fun _ _ => ?_
    refine ((readable_expr hc).expression n (by omega)).bind (.intro (by decide)) ?_
    refine .expect (by decide) _ (.any .rightParen) rfl fun _ _ => ?_
    exact (read n (by omega)).bind begins (.last readElse .pure)

theorem accepts_blockRest : ∀ {body : List Stmt} (n : Nat), Stmt.ListShaped body →
    (∀ s ∈ body, ReadableStmt s) → 20 * (Stmt.listSpelling body).length + 33 ≤ n →
    Accepts (fun _ => True) (blockRest n) (Stmt.listSpelling body ++ [.any .rightBrace])
      (Stmt.listUnbound body)
  | _, 0, _, _, hn => by omega
  | [], n + 1, _, _, _ => by
    refine .peek (P := (· = .rightBrace)) rfl fun t ht => ?_
    rw [ht]
    exact .expect (by decide) _ (.any .rightBrace) rfl fun _ _ => .pure
  | first :: rest, n + 1, hs, h, hn => by
    rw [Stmt.listSpelling] at hn ⊢
    rw [List.length_append] at hn
    obtain ⟨mark, others, same, starts, -⟩ := stmt_spelling_eq_cons hs.1
    have taken : first.spelling.length = others.length + 1 := by rw [same, List.length_cons]
    rw [List.append_assoc]
    have begins : Begins (· ∉ [.kwElse, .rightBrace, .eof])
        (first.spelling ++ (Stmt.listSpelling rest ++ [.any .rightBrace])) fun _ => True :=
      same ▸ starts
    refine .peek begins fun t ht => ?_
    have goesOn : ¬(decide (t.kind = .rightBrace) || decide (t.kind = .eof)) = true := by
      simp_all
    rw [if_neg goesOn]
    have behind :
        Begins (Behind first) (Stmt.listSpelling rest ++ [.any .rightBrace]) fun _ => True :=
      begins_stmts first hs.2 (.intro fun _ => by decide)
    refine ((h first (List.mem_cons_self ..)).declaration n (by omega)).bind behind ?_
    have read := accepts_blockRest n hs.2 (fun s hm => h s (List.mem_cons_of_mem _ hm)) (by omega)
    exact .last read .pure

theorem readsStatement_block {body : List Stmt} (hs : Stmt.ListShaped body)
    (h : ∀ s ∈ body, ReadableStmt s) : ReadsStatement (.block body) := by
  rintro (_ | n) hn
  · omega
  · rw [Stmt.spelling, List.cons_append] at hn ⊢
    simp only [List.length_append, List.length_cons, List.length_nil] at hn
    refine .peek (P := (· = .leftBrace)) rfl fun t ht => ?_
    rw [ht]
    refine .advance (.any .leftBrace) (by decide) fun _ _ => ?_
    have read := accepts_blockRest n hs h (by omega)
    exact .last (read.mono fun _ _ => trivial) .pure

theorem accepts_parameters : ∀ {names : List Token} (count n : Nat), names ≠ [] →
    (∀ p ∈ names, p.kind = .identifier) → count + names.length ≤ 255 →
    20 * (parameterSpelling names).length + 1 ≤ n →
    Accepts (· = .rightParen) (parameters n count) (parameterSpelling names) names
  | [], _, _, nonempty, _, _, _ => absurd rfl nonempty
  | _, _, 0, _, _, _, steps => by omega
  | first :: rest, count, n + 1, _, h, few, steps => by
    rw [List.length_cons] at few
    refine .noteHereIf (decide_eq_false (by unfold mostArguments; omega)) _ ?_
    have named : first.kind = .identifier := h first (List.mem_cons_self ..)
    cases rest with
    | nil =>
      refine .expect (by decide) _ (.own first) named ?_
      rintro _ rfl
      refine .absent ?_ .pure
      rintro _ rfl
      decide
    | cons next rest =>
      rw [parameterSpelling_cons first (List.cons_ne_nil next rest)] at steps ⊢
      rw [List.length_cons, List.length_cons] at steps
      refine .expect (by decide) _ (.own first) named ?_
      rintro _ rfl
      refine .present rfl (.advance (.any .comma) (by decide) fun _ _ => ?_)
      have more := accepts_parameters (count + 1) n (List.cons_ne_nil next rest)
        (fun p hp => h p (List.mem_cons_of_mem _ hp)) (by omega) (by omega)
      exact .last more .pure

theorem readsDeclaration_function {name : Token} {names : List Token} {body : List Stmt}
    (hn : name.kind = .identifier) (hp : ∀ p ∈ names, p.kind = .identifier)
    (few : names.length ≤ 255) (hs : Stmt.ListShaped body) (h : ∀ s ∈ body, ReadableStmt s) :
    ReadsDeclaration (.function name names body) := by
  rintro (_ | _ | n) steps
  · omega
  · omega
  · have marks : (Stmt.function name names body).spelling =
        .any .kwFun :: .own name :: .any .leftParen :: (parameterSpelling names ++
          .any .rightParen :: .any .leftBrace ::
          (Stmt.listSpelling body ++ [.any .rightBrace])) := by
      simp [Stmt.spelling]
    rw [marks] at steps ⊢
    simp only [List.length_append, List.length_cons, List.length_nil] at steps
    have given : Accepts (· = .rightParen) (Rule.unlessAt .rightParen [] (parameters n 0))
        (parameterSpelling names) names := by
      cases names with
      | nil => exact .present (fun _ h => h) .pure
      | cons first rest =>
        have begins : first.kind ≠ .rightParen := by simp [hp first (List.mem_cons_self ..)]
        have read := accepts_parameters 0 n (List.cons_ne_nil first rest) hp (by omega) (by omega)
        refine .absent ?_ read
        cases rest <;> exact begins
    refine .peek (P := (· = .kwFun)) rfl fun t ht => ?_
    rw [ht]
    refine .advance (.any .kwFun) (by decide) fun _ _ => .expect (by decide) _ (.own name) hn ?_
    rintro _ rfl
    refine .expect (by decide) _ (.any .leftParen) rfl fun _ _ => ?_
    refine given.bind (.intro rfl) (.expect (by decide) _ (.any .rightParen) rfl fun _ _ => ?_)
    refine .expect (by decide) _ (.any .leftBrace) rfl fun _ _ => ?_
    have read := accepts_blockRest n hs h (by omega)
    exact .last (read.mono fun _ _ => trivial) .pure

mutual

theorem readable_stmt : ∀ {s : Stmt}, s.Shaped → ReadableStmt s
  | .expression value, h => (readsStatement_expression h).readable h rfl
  | .print value, h => (readsStatement_print h).readable h rfl
  | .variable _ _, ⟨hn, h⟩ => (readsDeclaration_variable hn h).readable nofun
  | .block body, h => (readsStatement_block h (readable_stmts h)).readable h rfl
  | .branch _ _ none, h@⟨hc, inner, ht⟩ => by
    refine (readsStatement_branch hc ((readable_stmt ht).inner inner) fun s hs => ?_).readable h rfl
    cases hs
  | .branch _ _ (some _), h@⟨hc, ⟨inner, ht⟩, closed, innerElse, he⟩ => by
    have readElse := (readable_stmt he).inner innerElse
    refine (readsStatement_branch hc ((readable_stmt ht).inner inner) fun s hs => ?_).readable h rfl
    cases hs
    exact ⟨closed, readElse⟩
  | .loop _ _, h => (readsStatement_loop h.1 ((readable_stmt h.2.2).inner h.2.1)).readable h rfl
  | .function _ _ _, ⟨hn, hp, few, hs⟩ =>
    (readsDeclaration_function hn hp few hs (readable_stmts hs)).readable nofun
  | .return _ _, h => (readsStatement_return h.1 h.2).readable h rfl

theorem readable_stmts : ∀ {ss : List Stmt}, Stmt.ListShaped ss → ∀ s ∈ ss, ReadableStmt s
  | [], _ => nofun
  | _ :: _, ⟨h, hs⟩ => List.forall_mem_cons.2 ⟨readable_stmt h, readable_stmts hs⟩

end

-- ---------------------------------------------------------------------------
-- Programs
-- ---------------------------------------------------------------------------

theorem program_written {last : Token} (hl : last.kind = .eof) : ∀ {ss : List Stmt} {n : Nat}
    {tokens : List Token}, Stmt.ListShaped ss → 20 * (Stmt.listSpelling ss).length + 13 ≤ n →
    Written (Stmt.listSpelling ss) tokens →
    program n (tokens ++ [last]) = .ok { statements := Stmt.listUnbound ss, findings := [] }
  | _, 0, _, _, hn, _ => by omega
  | [], n + 1, _, _, _, .nil => by
    rw [List.nil_append, program, if_pos hl]
    rfl
  | first :: rest, n + 1, tokens, ⟨h, hs⟩, hn, written => by
    rw [Stmt.listSpelling] at hn written
    obtain ⟨mark, others, same, starts, -⟩ := stmt_spelling_eq_cons h
    rw [List.length_append] at hn
    have taken : first.spelling.length = others.length + 1 := by rw [same, List.length_cons]
    obtain ⟨front, left, rfl, hw, hw'⟩ := written.split
    obtain ⟨t, front', fits, -, rfl⟩ := List.forall₂_cons_left_iff.1 (same ▸ hw)
    have behind : Begins (Behind first) (Stmt.listSpelling rest) (· = .eof) := by
      have begins : Begins (Behind first) [] (· = .eof) := fun _ he _ => by simp [he]
      simpa using begins_stmts first hs begins
    obtain ⟨u, left', split, hu⟩ := behind.first hw' hl []
    have read := (readable_stmt h).declaration n (by omega) _ u left' hw hu
    rw [← split, List.cons_append] at read
    have notLast : t.kind ≠ .eof := fun he => starts (by simp [← fits.kind_eq, he])
    rw [List.append_assoc, List.cons_append]
    exact program_of_read notLast read (program_written hl hs (by omega) hw')

/-- Statements of the shape of the grammar can be written out as tokens; and however they are
written, what is read is these statements, their names not yet bound, without an error. -/
theorem parse_reads_written {ss : List Stmt} (h : Stmt.ListShaped ss) {last : Token}
    (hl : last.kind = .eof) :
    (∃ tokens, Written (Stmt.listSpelling ss) tokens) ∧
      ∀ tokens, Written (Stmt.listSpelling ss) tokens →
        parse (tokens ++ [last]) = .ok { statements := Stmt.listUnbound ss, findings := [] } := by
  refine ⟨Written.exists _, fun tokens written => program_written hl h ?_ written⟩
  rw [List.length_append, ← written.length_eq]
  unfold steps
  omega

/-- The tree of `if (a) while (a) { var a; } else a = a - -a(a, nil) or a;`, with `a` bound. -/
def loopInBranch : Stmt :=
  let token (kind : Kind) (lexeme : String) : Token := ⟨kind, lexeme, none, 1⟩
  let name := token .identifier "a"
  let use := Expr.variable name (some 0)
  let negated := Expr.unary (token .minus "-")
    (.call use (token .rightParen ")") [use, .literal .nil])
  .branch use (.loop use (.block [.variable name none])) (some (.expression (.assign name
    (.logical (.binary use (token .minus "-") negated) (token .kwOr "or") use) (some 0))))

theorem parse_reads_written_loop :
    Stmt.ListShaped [loopInBranch] ∧ ∃ tokens, Written (Stmt.listSpelling [loopInBranch]) tokens ∧
      parse (tokens ++ [Token.atEnd 1]) = .ok ⟨[loopInBranch.unbound], []⟩ := by
  have shaped : Stmt.ListShaped [loopInBranch] := by
    simp [loopInBranch, Stmt.ListShaped, Stmt.Shaped, Stmt.declared?, Stmt.endsOpen, Expr.Shaped,
      Expr.ListShaped, Expr.joined_iff, Expr.rank, Kind.precedence]
  have last : (Token.atEnd 1).kind = .eof := rfl
  obtain ⟨⟨tokens, written⟩, read⟩ := parse_reads_written shaped last
  exact ⟨shaped, tokens, written, read tokens written⟩

end Lox.Grammar
