import Lox.Proofs.Grammar.Joining
import Lox.Proofs.Grammar.Levels

/-!
# Reading loses nothing and invents nothing

What a rule reads without an error, written out again, is what it took off the front of the tokens;
and the trees that are read have the shape of the grammar. Tokens of a `for` are left out of
account: its tree is that of a `while`, which is written otherwise.
-/

namespace Lox.Grammar

variable {α β : Type}

-- ---------------------------------------------------------------------------
-- What was taken
-- ---------------------------------------------------------------------------

namespace Rule

/-- What the rule reads off these tokens without an error: `Q` holds of the value, of marks that say
how the tokens taken are written, and of the tokens left. -/
def ReadsAt (Q : α → List Mark → List Token → Prop) (x : Rule α) (tokens : List Token) : Prop :=
  (∀ t ∈ tokens, t.kind ≠ .kwFor) → ∀ value rest, x tokens = .read value rest [] →
    ∃ taken marks, tokens = taken ++ rest ∧ Written marks taken ∧ Q value marks rest

section
variable {P : α → List Mark → List Token → Prop} {Q : β → List Mark → List Token → Prop}
  {x : Rule α} {tokens rest : List Token} {t : Token}

theorem ReadsAt.never (h : ∀ value rest, x tokens ≠ .read value rest []) : ReadsAt P x tokens :=
  fun _ value rest hx => absurd hx (h value rest)

theorem ReadsAt.fail (fault : Fault) : ReadsAt P (fail fault) tokens :=
  .never fun _ _ h => nomatch h

theorem ReadsAt.stuck (cause : GrammarCause) : ReadsAt P (stuck cause) tokens := by
  refine .never fun value rest h => ?_
  cases tokens <;> cases h

theorem ReadsAt.note (f : Finding) (next : Unit → Rule β) : ReadsAt Q (note f >>= next) tokens := by
  refine .never fun value rest h => ?_
  obtain ⟨_, _, noted, -⟩ := bind_eq_read h
  cases noted

theorem ReadsAt.pure {a : α} (h : P a [] tokens) : ReadsAt P (Pure.pure a) tokens := by
  rintro - _ _ ⟨⟩
  exact ⟨[], [], rfl, .nil, h⟩

theorem ReadsAt.mono {P' : α → List Mark → List Token → Prop} (hx : ReadsAt P x tokens)
    (h : ∀ a marks rest, P a marks rest → P' a marks rest) : ReadsAt P' x tokens := by
  intro plain value rest read
  obtain ⟨taken, marks, split, written, hp⟩ := hx plain value rest read
  exact ⟨taken, marks, split, written, h _ _ _ hp⟩

theorem ReadsAt.bind {f : α → Rule β} (hx : ReadsAt P x tokens)
    (hf : ∀ a marks rest, P a marks rest →
      ReadsAt (fun b more left => Q b (marks ++ more) left) (f a) rest) :
    ReadsAt Q (x >>= f) tokens := by
  intro plain value rest read
  obtain ⟨a, middle, first, second⟩ := bind_eq_read read
  obtain ⟨taken, marks, rfl, written, hp⟩ := hx plain a middle first
  obtain ⟨next, more, rfl, written', hq⟩ :=
    hf a marks middle hp (fun t ht => plain t (List.mem_append_right _ ht)) value rest second
  exact ⟨taken ++ next, marks ++ more, (List.append_assoc ..).symm,
    List.rel_append written written', hq⟩

theorem ReadsAt.peek {f : Token → Rule β}
    (h : ∀ t rest, ReadsAt Q (f t) (t :: rest)) : ReadsAt Q (peek >>= f) tokens := by
  intro plain value left read
  cases tokens with
  | nil => cases read
  | cons t rest => exact h t rest plain value left ((peek_bind ..).symm.trans read)

theorem ReadsAt.whenAt {kind : Kind} {x y : Rule α}
    (hx : ∀ t rest, tokens = t :: rest → t.kind = kind → ReadsAt P x (t :: rest))
    (hy : ∀ t rest, tokens = t :: rest → t.kind ≠ kind → ReadsAt P y (t :: rest)) :
    ReadsAt P (Rule.check kind >>= fun found => if found = true then x else y) tokens := by
  intro plain value left read
  cases tokens with
  | nil => cases read
  | cons t rest =>
    rw [check_bind] at read
    by_cases ht : t.kind = kind
    · rw [if_pos (decide_eq_true ht)] at read
      exact hx t rest rfl ht plain value left read
    · rw [if_neg (by simpa using ht)] at read
      exact hy t rest rfl ht plain value left read

theorem ReadsAt.advance {f : Token → Rule β} (mark : Mark) (hm : mark.Fits t) (ht : t.kind ≠ .eof)
    (hf : ReadsAt (fun b more left => Q b (mark :: more) left) (f t) rest) :
    ReadsAt Q (advance >>= f) (t :: rest) := by
  intro plain value left read
  rw [advance_bind, if_neg ht] at read
  obtain ⟨taken, marks, rfl, written, hq⟩ :=
    hf (fun u hu => plain u (List.mem_cons_of_mem _ hu)) value left read
  exact ⟨t :: taken, mark :: marks, rfl, .cons hm written, hq⟩

theorem ReadsAt.expect {kind : Kind} (hk : kind ≠ .eof) (mark : Token → Mark)
    (hm : ∀ t, t.kind = kind → (mark t).Fits t) (what : String) {f : Token → Rule β}
    (hf : ∀ t rest, t.kind = kind →
      ReadsAt (fun b more left => Q b (mark t :: more) left) (f t) rest) :
    ReadsAt Q (expect kind what >>= f) tokens := by
  cases tokens with
  | nil => exact .never fun _ _ h => nomatch h
  | cons t rest =>
    by_cases ht : t.kind = kind
    · have taken : (Rule.expect kind what >>= f) (t :: rest) =
          (Rule.advance >>= f) (t :: rest) := by
        rw [bind_apply, bind_apply, expect_cons, if_pos ht]
      intro plain value left read
      exact ReadsAt.advance (mark t) (hm t ht) (ht ▸ hk) (hf t rest ht) plain value left
        (taken ▸ read)
    · refine .never fun value left read => ?_
      obtain ⟨_, _, first, -⟩ := bind_eq_read read
      rw [expect_cons, if_neg ht] at first
      cases first

theorem ReadsAt.expectAny {kind : Kind} (hk : kind ≠ .eof) (what : String) {f : Token → Rule β}
    (hf : ∀ t rest, ReadsAt (fun b more left => Q b (.any kind :: more) left) (f t) rest) :
    ReadsAt Q (Rule.expect kind what >>= f) tokens :=
  .expect hk (fun _ => .any kind) (fun _ => id) what fun t rest _ => hf t rest

theorem ReadsAt.expectOwn {kind : Kind} (hk : kind ≠ .eof) (what : String) {f : Token → Rule β}
    (hf : ∀ t rest, t.kind = kind →
      ReadsAt (fun b more left => Q b (.own t :: more) left) (f t) rest) :
    ReadsAt Q (Rule.expect kind what >>= f) tokens :=
  .expect hk Mark.own (fun _ _ => rfl) what hf

theorem ReadsAt.finding {f : Finding → Rule β} (cause : GrammarCause)
    (hf : ∀ wrong, ReadsAt Q (f wrong) (t :: rest)) :
    ReadsAt Q (finding cause >>= f) (t :: rest) := by
  intro plain value left read
  obtain ⟨wrong, middle, first, second⟩ := bind_eq_read read
  cases first
  exact hf _ plain value left second

theorem ReadsAt.noteHereIf (wrong : Bool) (cause : GrammarCause) :
    ReadsAt (fun _ marks _ => wrong = false ∧ marks = []) (noteHereIf wrong cause) tokens := by
  cases wrong with
  | true =>
    refine .never fun value rest read => ?_
    obtain ⟨_, _, -, noted⟩ := bind_eq_read read
    cases noted
  | false => exact .pure ⟨rfl, rfl⟩

theorem ReadsAt.unlessAt {kind : Kind} {absent : α} (ha : ∀ rest, P absent [] rest)
    (hx : ∀ tokens, ReadsAt P x tokens) : ReadsAt P (unlessAt kind absent x) tokens :=
  .whenAt (fun _ _ _ _ => .pure (ha _)) fun _ _ _ _ => hx _

theorem ReadsAt.following {Q : Option α → List Mark → List Token → Prop} {kind : Kind}
    (hk : kind ≠ .eof)
    (hx : ∀ t rest, tokens = t :: rest → t.kind = kind →
      ReadsAt (fun a more left => Q (some a) (.any kind :: more) left) x rest)
    (hn : ∀ t rest, tokens = t :: rest → t.kind ≠ kind → Q none [] (t :: rest)) :
    ReadsAt Q (following kind x) tokens := by
  refine .whenAt (fun t rest at' ht => ?_) fun t rest at' ht => .pure (hn t rest at' ht)
  refine .advance (.any kind) ht (ht ▸ hk) (.bind (hx t rest at' ht) fun a marks left h => ?_)
  exact .pure (by simpa using h)

end

end Rule

open Rule (ReadsAt)

-- ---------------------------------------------------------------------------
-- Expressions
-- ---------------------------------------------------------------------------

/-- A tree of the grammar, of a least rank, that is written by the marks. -/
def Writes (least : Nat) (e : Expr) (marks : List Mark) (_ : List Token) : Prop :=
  marks = e.spelling ∧ e.Shaped ∧ least ≤ e.rank

/-- A tree that goes on from a first operand or callee, which was read before the marks. -/
def WritesOn (least : Nat) (start e : Expr) (marks : List Mark) (_ : List Token) : Prop :=
  start.spelling ++ marks = e.spelling ∧ e.Shaped ∧ least ≤ e.rank

def WritesList (count : Nat) (es : List Expr) (marks : List Mark) (_ : List Token) : Prop :=
  marks = Expr.listSpelling es ∧ Expr.ListShaped es ∧ es ≠ [] ∧ count + es.length ≤ 255

mutual

theorem reads_expression : ∀ (n : Nat) (tokens : List Token),
    ReadsAt (Writes 0) (expression n) tokens
  | 0, _ => .fail _
  | n + 1, tokens => by
    refine .bind (reads_operation n graded_all tokens) ?_
    rintro left _ _ ⟨rfl, shaped, -⟩
    refine .whenAt (fun t rest _ ht => ?_) fun _ _ _ _ => .pure ⟨by simp, shaped, Nat.zero_le _⟩
    refine .finding _ fun wrong => .advance (.any .equal) ht (by simp [ht]) ?_
    refine .bind (reads_expression n rest) ?_
    rintro value _ _ ⟨rfl, shaped', -⟩
    cases left with
    | «variable» name depth =>
      exact .pure ⟨by simp [Expr.spelling], ⟨shaped, shaped'⟩, Nat.zero_le _⟩
    | _ => exact .note _ _

theorem reads_operation : ∀ (n : Nat) {levels : List Level}, Graded levels → ∀ tokens : List Token,
    ReadsAt (Writes (leastRank levels)) (operation n levels) tokens
  | 0, _, _, _ => .fail _
  | n + 1, [], _, tokens => reads_unary n tokens
  | n + 1, level :: tighter, graded, tokens => by
    refine .bind (reads_operation n graded.2 tokens) ?_
    rintro left _ rest ⟨rfl, shaped, tight⟩
    have loose : level.rank ≤ left.rank := by have := graded.1; omega
    exact (reads_operationRest n graded shaped loose rest).mono fun _ _ _ h => h

theorem reads_operationRest : ∀ (n : Nat) {level : Level} {tighter : List Level},
    Graded (level :: tighter) → ∀ {left : Expr}, left.Shaped → level.rank ≤ left.rank →
    ∀ tokens : List Token,
      ReadsAt (WritesOn level.rank left) (operationRest n level tighter left) tokens
  | 0, _, _, _, _, _, _, _ => .fail _
  | n + 1, level, tighter, graded, left, shaped, loose, tokens => by
    refine .peek fun t rest => ?_
    split
    · next ht =>
      refine .advance (.own t) rfl (ne_eof_of_operates ht) ?_
      refine .bind (reads_operation n graded.2 rest) ?_
      rintro right _ rest' ⟨rfl, shaped', tight⟩
      have joined := Level.shaped_join ht shaped loose shaped' (by have := graded.1; omega)
      have same : level.rank ≤ (level.join left t right).rank := by
        simp [Level.rank_join, Level.operates_iff.1 ht]
      refine (reads_operationRest n graded joined same rest').mono ?_
      rintro e more _ ⟨written, h⟩
      exact ⟨by rw [← written, Level.spelling_join]; simp, h⟩
    · exact .pure ⟨by simp, shaped, loose⟩

theorem reads_unary : ∀ (n : Nat) (tokens : List Token), ReadsAt (Writes 7) (unary n) tokens
  | 0, _ => .fail _
  | n + 1, tokens => by
    refine .peek fun t rest => ?_
    split
    · next ht =>
      refine .advance (.own t) rfl (ne_eof_of_isUnary ht) (.bind (reads_unary n rest) ?_)
      rintro operand _ _ ⟨rfl, shaped, tight⟩
      have operator : t.kind = .bang ∨ t.kind = .minus := by
        unfold isUnary at ht
        split at ht <;> simp_all
      exact .pure ⟨by simp [Expr.spelling], ⟨operator, tight, shaped⟩, Nat.le_refl _⟩
    · refine .bind (reads_primary n (t :: rest)) ?_
      rintro callee _ rest' ⟨rfl, shaped, tight⟩
      refine (reads_callRest n shaped (Nat.le_of_succ_le tight) rest').mono ?_
      rintro e more _ ⟨written, shaped, tight⟩
      exact ⟨written, shaped, Nat.le_of_succ_le tight⟩

theorem reads_callRest : ∀ (n : Nat) {callee : Expr}, callee.Shaped → 8 ≤ callee.rank →
    ∀ tokens : List Token, ReadsAt (WritesOn 8 callee) (callRest n callee) tokens
  | 0, _, _, _, _ => .fail _
  | n + 1, callee, shaped, tight, tokens => by
    refine .whenAt (fun t rest _ ht => ?_) fun _ _ _ _ => .pure ⟨by simp, shaped, tight⟩
    refine .advance (.any .leftParen) ht (by simp [ht]) ?_
    have given : ReadsAt (fun es marks _ => marks = Expr.listSpelling es ∧ Expr.ListShaped es ∧
        es.length ≤ 255) (Rule.unlessAt .rightParen [] (arguments n 0)) rest := by
      refine .unlessAt (fun _ => ⟨rfl, trivial, Nat.zero_le _⟩) fun tokens => ?_
      refine (reads_arguments n 0 tokens).mono fun es marks _ ⟨written, shaped, _, count⟩ => ?_
      exact ⟨written, shaped, by simpa using count⟩
    refine .bind given ?_
    rintro es _ rest' ⟨rfl, shapedList, count⟩
    refine .expectOwn (by decide) _ fun paren rest'' hp => ?_
    have called : (Expr.call callee paren es).Shaped := ⟨hp, tight, shaped, count, shapedList⟩
    refine (reads_callRest n called (Nat.le_refl _) rest'').mono ?_
    rintro e more _ ⟨written, h⟩
    exact ⟨by rw [← written]; simp [Expr.spelling], h⟩

theorem reads_arguments : ∀ (n count : Nat) (tokens : List Token),
    ReadsAt (WritesList count) (arguments n count) tokens
  | 0, _, _ => .fail _
  | n + 1, count, tokens => by
    refine .bind (.noteHereIf _ _) ?_
    rintro _ _ rest ⟨few, rfl⟩
    have few : count < 255 := Nat.lt_of_not_le (of_decide_eq_false few)
    refine .bind (reads_expression n rest) ?_
    rintro first _ _ ⟨rfl, shaped, -⟩
    refine .whenAt (fun t rest' _ ht => ?_) fun _ _ _ _ =>
      .pure ⟨by simp [Expr.listSpelling], ⟨shaped, trivial⟩, List.cons_ne_nil _ _, few⟩
    refine .advance (.any .comma) ht (by simp [ht]) (.bind (reads_arguments n (count + 1) rest') ?_)
    rintro more _ _ ⟨rfl, shapedList, nonempty, total⟩
    refine .pure ⟨?_, ⟨shaped, shapedList⟩, List.cons_ne_nil _ _, ?_⟩
    · obtain ⟨next, others, rfl⟩ := List.exists_cons_of_ne_nil nonempty
      simp [Expr.listSpelling]
    · rw [List.length_cons]
      omega

theorem reads_primary : ∀ (n : Nat) (tokens : List Token), ReadsAt (Writes 9) (primary n) tokens
  | 0, _ => .fail _
  | n + 1, tokens => by
    refine .peek fun t rest => ?_
    split
    · next ht =>
      cases hc : Constant.ofToken? t with
      | none =>
        refine .advance (.own t) rfl (ne_eof_of_isLiteral ht) ?_
        rw [hc]
        exact .fail _
      | some value =>
        refine .advance (.constant value) (Constant.ofToken?_eq_some.1 hc)
          (ne_eof_of_isLiteral ht) ?_
        rw [hc]
        exact .pure ⟨by simp [Expr.spelling], trivial, Nat.le_refl _⟩
    split
    · next ht =>
      exact .advance (.own t) rfl (by simp [ht])
        (.pure ⟨by simp [Expr.spelling], ht, Nat.le_refl _⟩)
    split
    · next ht =>
      refine .advance (.any .leftParen) ht (by simp [ht]) (.bind (reads_expression n rest) ?_)
      rintro inner _ _ ⟨rfl, shaped, -⟩
      refine .expectAny (by decide) _ fun _ _ => .pure ⟨?_, shaped, Nat.le_refl _⟩
      simp [Expr.spelling]
    · exact .stuck _

end

-- ---------------------------------------------------------------------------
-- Statements
-- ---------------------------------------------------------------------------

theorem reads_parameters : ∀ (n count : Nat) (tokens : List Token),
    ReadsAt (fun names marks _ => marks = parameterSpelling names ∧
        (∀ p ∈ names, p.kind = .identifier) ∧ names ≠ [] ∧ count + names.length ≤ 255)
      (parameters n count) tokens
  | 0, _, _ => .fail _
  | n + 1, count, tokens => by
    refine .bind (.noteHereIf _ _) ?_
    rintro _ _ rest ⟨few, rfl⟩
    have few : count < 255 := Nat.lt_of_not_le (of_decide_eq_false few)
    refine .expectOwn (by decide) _ fun first rest hf => ?_
    refine .whenAt (fun t rest' _ ht => ?_) fun _ _ _ _ =>
      .pure ⟨rfl, by simpa using hf, List.cons_ne_nil _ _, few⟩
    refine .advance (.any .comma) ht (by simp [ht]) ?_
    refine .bind (reads_parameters n (count + 1) rest') ?_
    rintro more _ _ ⟨rfl, named, nonempty, total⟩
    refine .pure ⟨?_, by simpa [hf] using named, List.cons_ne_nil _ _, ?_⟩
    · simp [parameterSpelling_cons first nonempty]
    · rw [List.length_cons]
      omega

/-- A statement of the grammar that is written by the marks, with those before it that were read
already. -/
def WritesStmt (ahead : List Mark) (s : Stmt) (marks : List Mark) (_ : List Token) : Prop :=
  ahead ++ marks = s.spelling ∧ s.Shaped

/-- A statement that is no declaration; and no `else` that it could have is left behind it. -/
def WritesInner (ahead : List Mark) (s : Stmt) (marks : List Mark) (rest : List Token) : Prop :=
  WritesStmt ahead s marks rest ∧ s.declared? = none ∧
    (s.endsOpen → ∀ t ∈ rest.head?, t.kind ≠ .kwElse)

theorem reads_variableRest (n : Nat) (tokens : List Token) :
    ReadsAt (WritesStmt [.any .kwVar]) (variableRest n) tokens := by
  refine .expectOwn (by decide) _ fun name rest hn => ?_
  have initial : ReadsAt (fun value marks _ => (∀ e ∈ value, e.Shaped) ∧
      (Stmt.variable name value).spelling = .any .kwVar :: .own name :: marks ++ [.any .semicolon])
      (Rule.following .equal (expression n)) rest := by
    refine .following (by decide) (fun _ rest' _ _ => ?_) fun _ _ _ _ => ⟨nofun, rfl⟩
    refine (reads_expression n rest').mono ?_
    rintro value _ _ ⟨rfl, shaped, -⟩
    exact ⟨by simpa using shaped, by simp [Stmt.spelling]⟩
  refine .bind initial ?_
  rintro value marks _ ⟨shaped, written⟩
  exact .expectAny (by decide) _ fun _ _ => .pure ⟨by simp [written], hn, shaped⟩

theorem reads_expressionStatement (n : Nat) (tokens : List Token) :
    ReadsAt (WritesInner []) (expressionStatement n) tokens := by
  refine .bind (reads_expression n tokens) ?_
  rintro value _ _ ⟨rfl, shaped, -⟩
  exact .expectAny (by decide) _ fun _ _ => .pure ⟨⟨by simp [Stmt.spelling], shaped⟩, rfl, nofun⟩

theorem reads_returned (n : Nat) (keyword : Token) (tokens : List Token) :
    ReadsAt (fun value marks _ => (∀ e ∈ value, e.Shaped) ∧
        (Stmt.return keyword value).spelling = .own keyword :: marks ++ [.any .semicolon])
      (optionalBefore .semicolon n) tokens := by
  refine .unlessAt (fun _ => ⟨nofun, rfl⟩) fun tokens => .bind (reads_expression n tokens) ?_
  rintro value _ _ ⟨rfl, shaped, -⟩
  exact .pure ⟨by simpa using shaped, by simp [Stmt.spelling]⟩

mutual

theorem reads_declaration : ∀ (n : Nat) (tokens : List Token),
    ReadsAt (WritesStmt []) (declaration n) tokens
  | 0, _ => .fail _
  | n + 1, tokens => by
    refine .peek fun t rest => ?_
    split
    · next ht => exact .advance (.any .kwFun) ht (by simp [ht]) (reads_functionRest n rest)
    split
    · next ht => exact .advance (.any .kwVar) ht (by simp [ht]) (reads_variableRest n rest)
    · exact (reads_statement n (t :: rest)).mono fun _ _ _ h => h.1

theorem reads_functionRest : ∀ (n : Nat) (tokens : List Token),
    ReadsAt (WritesStmt [.any .kwFun]) (functionRest n) tokens
  | 0, _ => .fail _
  | n + 1, tokens => by
    refine .expectOwn (by decide) _ fun name _ hn => .expectAny (by decide) _ fun _ rest => ?_
    have named : ReadsAt (fun names marks _ => marks = parameterSpelling names ∧
        (∀ p ∈ names, p.kind = .identifier) ∧ names.length ≤ 255)
        (Rule.unlessAt .rightParen [] (parameters n 0)) rest := by
      refine .unlessAt (fun _ => ⟨rfl, nofun, Nat.zero_le _⟩) fun tokens => ?_
      refine (reads_parameters n 0 tokens).mono fun names _ _ ⟨written, named, _, count⟩ => ?_
      exact ⟨written, named, by simpa using count⟩
    refine .bind named ?_
    rintro names _ _ ⟨rfl, named, count⟩
    refine .expectAny (by decide) _ fun _ _ => .expectAny (by decide) _ fun _ rest' => ?_
    refine .bind (reads_blockRest n rest') ?_
    rintro body _ _ ⟨rfl, shaped⟩
    exact .pure ⟨by simp [Stmt.spelling], hn, named, count, shaped⟩

theorem reads_statement : ∀ (n : Nat) (tokens : List Token),
    ReadsAt (WritesInner []) (statement n) tokens
  | 0, _ => .fail _
  | n + 1, tokens => by
    refine .peek fun t rest => ?_
    cases ht : t.kind with
    | kwFor => exact fun plain => absurd ht (plain t (List.mem_cons_self ..))
    | kwIf => exact .advance (.any .kwIf) ht (by simp [ht]) (reads_ifRest n rest)
    | kwPrint =>
      refine .advance (.any .kwPrint) ht (by simp [ht]) (.bind (reads_expression n rest) ?_)
      rintro value _ _ ⟨rfl, shaped, -⟩
      exact .expectAny (by decide) _ fun _ _ =>
        .pure ⟨⟨by simp [Stmt.spelling], shaped⟩, rfl, nofun⟩
    | kwReturn =>
      refine .advance (.own t) rfl (by simp [ht]) (.bind (reads_returned n t rest) ?_)
      rintro value marks _ ⟨shaped, written⟩
      exact .expectAny (by decide) _ fun _ _ => .pure ⟨⟨by simp [written], ht, shaped⟩, rfl, nofun⟩
    | kwWhile =>
      refine .advance (.any .kwWhile) ht (by simp [ht]) (.expectAny (by decide) _ fun _ rest => ?_)
      refine .bind (reads_expression n rest) ?_
      rintro condition _ _ ⟨rfl, shaped, -⟩
      refine .expectAny (by decide) _ fun _ rest' => .bind (reads_statement n rest') ?_
      rintro body _ _ ⟨⟨rfl, shapedBody⟩, inner, closed⟩
      exact .pure ⟨⟨by simp [Stmt.spelling], shaped, inner, shapedBody⟩, rfl, closed⟩
    | leftBrace =>
      refine .advance (.any .leftBrace) ht (by simp [ht]) (.bind (reads_blockRest n rest) ?_)
      rintro body _ _ ⟨rfl, shaped⟩
      exact .pure ⟨⟨by simp [Stmt.spelling], shaped⟩, rfl, nofun⟩
    | _ => exact reads_expressionStatement n (t :: rest)

/-- An `else` behind a statement that could have it was not left to the `if` around. -/
theorem reads_ifRest : ∀ (n : Nat) (tokens : List Token),
    ReadsAt (WritesInner [.any .kwIf]) (ifRest n) tokens
  | 0, _ => .fail _
  | n + 1, tokens => by
    refine .expectAny (by decide) _ fun _ rest => .bind (reads_expression n rest) ?_
    rintro condition _ _ ⟨rfl, shaped, -⟩
    refine .expectAny (by decide) _ fun _ rest' => .bind (reads_statement n rest') ?_
    rintro consequent _ rest ⟨⟨rfl, shapedThen⟩, inner, closed⟩
    have alternative : ReadsAt (fun s => WritesInner
        (.any .kwIf :: .any .leftParen :: condition.spelling ++
          .any .rightParen :: consequent.spelling)
        (.branch condition consequent s)) (Rule.following .kwElse (statement n)) rest := by
      refine .following (by decide) (fun t rest' at' ht => ?_) fun t rest' _ ht => ?_
      · refine (reads_statement n rest').mono ?_
        rintro s _ _ ⟨⟨rfl, shapedElse⟩, innerElse, closedElse⟩
        have notOpen : consequent.endsOpen = false :=
          Bool.eq_false_iff.2 fun h => closed h t (by simp [at']) ht
        exact ⟨⟨by simp [Stmt.spelling], shaped, ⟨inner, shapedThen⟩, notOpen, innerElse,
          shapedElse⟩, rfl, closedElse⟩
      · exact ⟨⟨by simp [Stmt.spelling], shaped, inner, shapedThen⟩, rfl,
          fun _ => by simpa using ht⟩
    refine .bind alternative fun s marks left h => .pure ?_
    simpa [WritesInner, WritesStmt] using h

theorem reads_blockRest : ∀ (n : Nat) (tokens : List Token),
    ReadsAt (fun body marks _ => marks = Stmt.listSpelling body ++ [.any .rightBrace] ∧
      Stmt.ListShaped body) (blockRest n) tokens
  | 0, _ => .fail _
  | n + 1, tokens => by
    refine .peek fun t rest => ?_
    split
    · exact .expectAny (by decide) _ fun _ _ => .pure ⟨rfl, trivial⟩
    · refine .bind (reads_declaration n (t :: rest)) ?_
      rintro first _ rest' ⟨rfl, shaped⟩
      refine .bind (reads_blockRest n rest') ?_
      rintro body _ _ ⟨rfl, shapedList⟩
      exact .pure ⟨by simp [Stmt.listSpelling], shaped, shapedList⟩

end

-- ---------------------------------------------------------------------------
-- Programs
-- ---------------------------------------------------------------------------

theorem program_writes {last : Token} (hl : last.kind = .eof) {n : Nat} {tokens : List Token}
    {r : Reading} (ht : ∀ t ∈ tokens, t.kind ≠ .eof ∧ t.kind ≠ .kwFor)
    (h : program n (tokens ++ [last]) = .ok r) (hf : r.findings = []) :
    Written (Stmt.listSpelling r.statements) tokens ∧ Stmt.ListShaped r.statements := by
  induction n generalizing tokens r with
  | zero => cases h
  | succ n ih =>
    cases tokens with
    | nil =>
      rw [List.nil_append, program, if_pos hl] at h
      cases h
      exact ⟨.nil, trivial⟩
    | cons t rest =>
      obtain ⟨s, after, r', first, second, hf', same⟩ :=
        program_cons_eq_ok h hf (ht t (List.mem_cons_self ..)).1
      have plain : ∀ u ∈ t :: rest ++ [last], u.kind ≠ .kwFor := by
        intro u hu
        rcases List.mem_append.1 hu with hu | hu
        · exact (ht u hu).2
        · rw [List.mem_singleton.1 hu, hl]
          decide
      obtain ⟨taken, marks, split, written, rfl, shaped⟩ :=
        reads_declaration n _ plain s after first
      obtain ⟨left, rfl, taken_left⟩ := append_singleton_of_program second split
      rw [taken_left] at ht ⊢
      obtain ⟨written', shaped'⟩ := ih (fun u hu => ht u (List.mem_append_right _ hu)) second hf'
      rw [same]
      exact ⟨List.rel_append written written', shaped, shaped'⟩

/-- Statements that are read without an error, written out by the grammar, are the tokens they were
read from, and every tree of them has the shape of the grammar. -/
theorem parse_writes_back {tokens : List Token} {last : Token} {r : Reading}
    (hl : last.kind = .eof) (ht : ∀ t ∈ tokens, t.kind ≠ .eof ∧ t.kind ≠ .kwFor)
    (h : parse (tokens ++ [last]) = .ok r) (hf : r.findings = []) :
    Written (Stmt.listSpelling r.statements) tokens ∧ Stmt.ListShaped r.statements :=
  program_writes hl ht h hf

/-- The tokens of `if (a) if (a) a = "b" + a(a); else print a;`. -/
def twoIfsOneElse : List Token :=
  let plain (kind : Kind) (lexeme : String) : Token := ⟨kind, lexeme, none, 1⟩
  let name := plain .identifier "a"
  let test := [plain .kwIf "if", plain .leftParen "(", name, plain .rightParen ")"]
  test ++ test ++ [name, plain .equal "=", ⟨.string, "\"b\"", some (.string "b"), 1⟩,
    plain .plus "+", name, plain .leftParen "(", name, plain .rightParen ")", plain .semicolon ";",
    plain .kwElse "else", plain .kwPrint "print", name, plain .semicolon ";"]

/-- The `else` is the inner one's. -/
theorem parse_writes_back_inner_else :
    ∃ r condition consequent alternative,
      parse (twoIfsOneElse ++ [Token.atEnd 1]) = .ok r ∧ r.findings = [] ∧
      r.statements = [.branch condition (.branch condition consequent (some alternative)) none] ∧
      Written (Stmt.listSpelling r.statements) twoIfsOneElse ∧ Stmt.ListShaped r.statements := by
  have read : parse (twoIfsOneElse ++ [Token.atEnd 1]) = .ok _ := rfl
  exact ⟨_, _, _, _, read, rfl, rfl, parse_writes_back rfl (by decide) read rfl⟩

end Lox.Grammar
