import Lox.Proofs.Grammar.Viable

/-!
# What is left of a program

After an error reading goes on at top level, wherever the error was, and what is left may have lost
the beginnings of the blocks and branches it belongs to. If it is the end of a program without
errors, it is made of declarations without errors, with stray braces and `else` between them
(`Tail`). Reading it finds errors at these only (`program_tail`).
-/

namespace Lox.Grammar

variable {α β γ : Type}

-- ---------------------------------------------------------------------------
-- What can be left of a program
-- ---------------------------------------------------------------------------

/-- Tokens that are left of a program without errors: declarations that are read without errors, and
between them braces and `else` that have lost what they belong to. -/
inductive Tail : List Token → Prop
  | atEnd {t : Token} {rest : List Token} : t.kind = .eof → Tail (t :: rest)
  | declared {n : Nat} {tokens rest : List Token} {s : Stmt} :
    declaration n tokens = .read s rest [] → Tail rest → Tail tokens
  | stray {t : Token} {rest : List Token} : t.kind = .rightBrace ∨ t.kind = .kwElse → Tail rest →
    Tail (t :: rest)

theorem tail_of_program {n : Nat} {tokens : List Token} {r : Reading} (h : program n tokens = .ok r)
    (hf : r.findings = []) : Tail tokens := by
  induction n generalizing tokens r with
  | zero => cases h
  | succ n ih =>
    cases tokens with
    | nil => cases h
    | cons t tokens =>
      by_cases ht : t.kind = .eof
      · exact .atEnd ht
      obtain ⟨s, after, r₁, first, rest, none, -⟩ := program_cons_eq_ok h hf ht
      exact .declared first (ih rest none)

/-- What the rule reads without errors can stand before the rest of a program. -/
def Rule.Backs (x : Rule α) : Prop :=
  ∀ tokens v rest, x tokens = .read v rest [] → Tail rest → Tail tokens

theorem Rule.Backs.pure (v : α) : Rule.Backs (Pure.pure v) := by
  rintro tokens _ _ ⟨⟩ tail
  exact tail

theorem Rule.Backs.bind {x : Rule α} {f : α → Rule β} (hx : x.Backs) (hf : ∀ v, (f v).Backs) :
    (x >>= f).Backs := by
  intro tokens v rest read tail
  obtain ⟨a, middle, first, second⟩ := Rule.bind_eq_read read
  exact hx _ _ _ first (hf a _ _ _ second tail)

theorem declaration_of_statement {n : Nat} {tokens rest : List Token} {s : Stmt}
    (h : statement n tokens = .read s rest []) : declaration (n + 1) tokens = .read s rest [] := by
  have located := locates_statement n ((Heads.zero _).allows _) tokens
  rw [h] at located
  obtain ⟨taken, rfl, mem, -⟩ := located
  obtain ⟨-, empty⟩ | ⟨k, first, starts⟩ := Derives.starts mem
  · cases empty
  cases taken with
  | nil => cases first
  | cons t taken =>
    obtain rfl : t.kind = k := Option.some.inj first
    rw [declaration]
    rw [List.cons_append, Rule.peek_bind, if_neg, if_neg]
    · exact h
    · intro ht
      rw [ht] at starts
      exact absurd starts (by decide)
    · intro ht
      rw [ht] at starts
      exact absurd starts (by decide)

theorem backs_blockRest (n : Nat) : (blockRest n).Backs := by
  induction n with
  | zero => rintro tokens v rest ⟨⟩
  | succ n ih =>
    intro tokens v rest read tail
    cases tokens with
    | nil => cases read
    | cons t tokens =>
      rw [blockRest, Rule.peek_bind] at read
      split at read
      · obtain ⟨brace, middle, first, last⟩ := Rule.bind_eq_read read
        cases last
        obtain ⟨split, ht⟩ := Rule.expect_eq_read (by decide) first
        rw [split]
        exact .stray (.inl ht) tail
      · obtain ⟨s, middle, first, others⟩ := Rule.bind_eq_read read
        obtain ⟨ss, _, more, last⟩ := Rule.bind_eq_read others
        cases last
        exact .declared first (ih _ _ _ more tail)

theorem backs_else (n : Nat) : (Rule.following .kwElse (statement n)).Backs := by
  intro tokens v rest read tail
  cases tokens with
  | nil => cases read
  | cons t tokens =>
    rw [Rule.following, Rule.check_bind] at read
    by_cases ht : t.kind = .kwElse
    · rw [if_pos (decide_eq_true ht), Rule.advance_bind, if_neg (by simp [ht])] at read
      obtain ⟨s, middle, first, last⟩ := Rule.bind_eq_read read
      cases last
      exact .stray (.inr ht) (.declared (declaration_of_statement first) tail)
    · rw [if_neg (by simpa using ht)] at read
      cases read
      exact tail

-- ---------------------------------------------------------------------------
-- Where no expression starts
-- ---------------------------------------------------------------------------

section
variable {t : Token} {rest : List Token}

theorem primary_stuck {n : Nat} (hn : 1 ≤ n) (ht : t.kind ∉ Part.primary.starts) :
    primary n (t :: rest) = .stuck (t :: rest) [Finding.at t rest .expectedExpression] := by
  obtain ⟨n, rfl⟩ : ∃ k, n = k + 1 := Nat.exists_eq_succ_of_ne_zero (by omega)
  have literal : isLiteral t.kind = false := by
    revert ht
    cases t.kind <;> decide
  rw [primary, Rule.peek_bind, literal, if_neg Bool.false_ne_true, if_neg, if_neg]
  · rfl
  · intro paren
    exact ht (by rw [paren]; decide)
  · intro name
    exact ht (by rw [name]; decide)

theorem unary_stuck {n : Nat} (hn : 2 ≤ n) (ht : t.kind ∉ Part.unary.starts) :
    unary n (t :: rest) = .stuck (t :: rest) [Finding.at t rest .expectedExpression] := by
  obtain ⟨n, rfl⟩ : ∃ k, n = k + 1 := Nat.exists_eq_succ_of_ne_zero (by omega)
  have operand : isUnary t.kind = false := by
    revert ht
    cases t.kind <;> decide
  have primary : primary n (t :: rest) =
      .stuck (t :: rest) [Finding.at t rest .expectedExpression] :=
    primary_stuck (by omega) fun mem => ht (List.mem_append_right _ mem)
  rw [unary, Rule.peek_bind, operand, if_neg Bool.false_ne_true, Rule.bind_apply, primary]

theorem operation_stuck {n : Nat} {levels : List Level} (hn : levels.length + 3 ≤ n)
    (ht : t.kind ∉ Part.unary.starts) :
    operation n levels (t :: rest) =
      .stuck (t :: rest) [Finding.at t rest .expectedExpression] := by
  induction levels generalizing n with
  | nil =>
    obtain ⟨n, rfl⟩ : ∃ k, n = k + 1 := Nat.exists_eq_succ_of_ne_zero (by omega)
    rw [operation]
    exact unary_stuck (by simp at hn; omega) ht
  | cons level tighter ih =>
    obtain ⟨n, rfl⟩ : ∃ k, n = k + 1 := Nat.exists_eq_succ_of_ne_zero (by omega)
    rw [operation, Rule.bind_apply, ih (by simp at hn; omega)]

theorem expression_stuck {n : Nat} (hn : 10 ≤ n) (ht : t.kind ∉ Part.expression.starts) :
    expression n (t :: rest) = .stuck (t :: rest) [Finding.at t rest .expectedExpression] := by
  obtain ⟨n, rfl⟩ : ∃ k, n = k + 1 := Nat.exists_eq_succ_of_ne_zero (by omega)
  rw [expression, Rule.bind_apply, operation_stuck (by simp [Level.all]; omega) ht]

/-- A brace or an `else` starts nothing. -/
theorem declaration_stuck {n : Nat} (hn : 12 ≤ n) (ht : t.kind = .rightBrace ∨ t.kind = .kwElse) :
    declaration n (t :: rest) = .stuck (t :: rest) [Finding.at t rest .expectedExpression] := by
  obtain ⟨n, rfl⟩ : ∃ k, n = k + 2 := Nat.exists_eq_add_of_le' (by omega)
  have expression : expression n (t :: rest) =
      .stuck (t :: rest) [Finding.at t rest .expectedExpression] :=
    expression_stuck (by omega) (by rcases ht with ht | ht <;> rw [ht] <;> decide)
  have statement : expressionStatement n (t :: rest) =
      .stuck (t :: rest) [Finding.at t rest .expectedExpression] := by
    rw [expressionStatement, Rule.bind_apply, expression]
  rcases ht with ht | ht
  · simpa [declaration, Rule.peek_bind, ht, Lox.Grammar.statement] using statement
  · simpa [declaration, Rule.peek_bind, ht, Lox.Grammar.statement] using statement

end

-- ---------------------------------------------------------------------------
-- Skipping
-- ---------------------------------------------------------------------------

def Part.inExpression : Part → Bool
  | .expression | .operation _ | .unary | .call | .arguments | .primary => true
  | _ => false

/-- Skipping goes on behind a token of the kind. -/
def passable (k : Kind) : Bool :=
  k ≠ .eof && k ≠ .semicolon && !k.startsStatement

theorem passable_of_expression {word : List Kind} (h : word ∈ (Form.part .expression).language) :
    ∀ k ∈ word, passable k = true := by
  refine Derives.over (P := Part.inExpression) (fun p hp => ?_) h rfl
  cases p with
  | operation levels => exact Part.over_operation rfl (fun _ => rfl) (by rintro ⟨⟩ <;> rfl) levels
  | expression | unary | call | arguments | primary => rfl
  | _ => cases hp

theorem ne_semicolon_of_passable {k : Kind} (h : passable k = true) : k ≠ .semicolon := by
  rintro rfl
  cases h

theorem closed_expression_cases {n : Nat} {what : String} {make : Expr → α}
    {tokens rest : List Token} {v : α}
    (h : (expression n >>= fun e => Rule.expect .semicolon what >>= fun _ => pure (make e)) tokens =
      .read v rest []) :
    ∃ e middle taken semicolon, expression n tokens = .read e middle [] ∧
    middle = semicolon :: rest ∧
      tokens = taken ++ middle ∧ taken ≠ [] ∧ (∀ t ∈ taken, passable t.kind = true) ∧
      semicolon.kind = .semicolon := by
  obtain ⟨e, middle, first, others⟩ := Rule.bind_eq_read h
  obtain ⟨semicolon, _, closed, last⟩ := Rule.bind_eq_read others
  cases last
  obtain ⟨here, hs⟩ := Rule.expect_eq_read (by decide) closed
  have located := locates_expression n (Heads.zero _) tokens
  rw [first] at located
  obtain ⟨taken, split, mem, -⟩ := located
  refine ⟨e, middle, taken, semicolon, first, here, split, ?_, fun t ht => ?_, hs⟩
  · rintro rfl
    obtain ⟨-, empty⟩ | ⟨_, none, -⟩ := Derives.starts mem
    · cases empty
    · cases none
  · exact passable_of_expression mem t.kind (List.mem_map_of_mem ht)

theorem skip_closed {previous : Kind} {taken rest : List Token} {semicolon : Token}
    (hp : ∀ t ∈ taken, passable t.kind = true) (hs : semicolon.kind = .semicolon)
    (unclosed : previous ≠ .semicolon) (hr : rest ≠ []) :
    skip previous (taken ++ semicolon :: rest) = .ok rest := by
  induction taken generalizing previous with
  | nil =>
    obtain ⟨t, rest, rfl⟩ := List.exists_cons_of_ne_nil hr
    simp [skip, hs, unclosed, Kind.startsStatement]
  | cons t taken ih =>
    rw [List.forall_mem_cons] at hp
    have here := hp.1
    simp only [passable, Bool.and_eq_true, decide_eq_true_eq, Bool.not_eq_true'] at here
    rw [List.cons_append, skip, if_neg (by simp [here, unclosed])]
    exact ih hp.2 here.1.2

theorem declaration_unstarted {n : Nat} {t : Token} {tokens : List Token}
    (ht : t.kind.startsStatement = false) :
    declaration (n + 2) (t :: tokens) =
      if t.kind = .leftBrace then
        (Rule.advance >>= fun _ => blockRest n >>= fun body => pure (Stmt.block body)) (t :: tokens)
      else
        expressionStatement n (t :: tokens) := by
  rw [declaration, Rule.peek_bind, statement]
  cases hk : t.kind with
  | kwFun | kwVar | kwFor | kwIf | kwPrint | kwReturn | kwWhile =>
    rw [hk] at ht
    cases ht
  | _ => simp [Rule.peek_bind, hk]

theorem Tail.ne_nil {tokens : List Token} (h : Tail tokens) : tokens ≠ [] := by
  rintro rfl
  cases h with
  | @declared n _ _ _ read _ => cases n <;> cases read

theorem declaration_steps {n m : Nat} {tokens rest : List Token} {s : Stmt}
    (h : declaration n tokens = .read s rest []) (hr : rest ≠ [])
    (hm : 20 * tokens.length + 12 ≤ m) :
    declaration m tokens = .read s rest [] := by
  obtain ⟨taken, rfl, -, again⟩ :=
    (local_declaration (g := id) (Nat.le_max_left n m) tokens).read h
  have follow : Follow ElseAlike rest rest := by
    obtain ⟨t, rest, rfl⟩ := List.exists_cons_of_ne_nil hr
    exact .intro Iff.rfl
  have most := again rest follow
  rw [Token.map_relabel_id, Stmt.relabel_id] at most
  have agree := steady_declaration hm (Nat.le_max_right n m) (taken ++ rest) [] (.inl rfl)
    (Nat.le_refl _)
  rw [List.append_nil, most] at agree
  exact agree.eq.symm

theorem skip_tail (previous : Kind) {tokens : List Token} (h : Tail tokens) :
    ∃ after, skip previous tokens = .ok after ∧ Tail after := by
  induction hl : tokens.length using Nat.strong_induction_on generalizing tokens previous with
  | _ length ih =>
    obtain ⟨t, tokens, rfl⟩ := List.exists_cons_of_ne_nil h.ne_nil
    rw [skip]
    split
    · exact ⟨_, rfl, h⟩
    next goesOn =>
    simp only [Bool.or_eq_true, decide_eq_true_eq, not_or, Bool.not_eq_true] at goesOn
    obtain ⟨⟨notLast, unclosed⟩, unstarted⟩ := goesOn
    have shorter : tokens.length < length := by
      rw [← hl]
      exact Nat.lt_succ_self _
    cases h with
    | atEnd ht => exact absurd ht notLast
    | stray ht tail => exact ih _ shorter _ tail rfl
    | @declared n _ rest s read tail =>
      have enough := declaration_steps (m := 20 * (t :: tokens).length + 10 + 2) read tail.ne_nil
        (Nat.le_refl _)
      rw [declaration_unstarted unstarted] at enough
      split at enough
      · next ht =>
        rw [Rule.advance_bind, if_neg notLast] at enough
        obtain ⟨body, _, first, last⟩ := Rule.bind_eq_read enough
        cases last
        exact ih _ shorter _ (backs_blockRest _ _ _ _ first tail) rfl
      · obtain ⟨e, _, taken, semicolon, -, rfl, split, nonempty, passed, hs⟩ :=
          closed_expression_cases enough
        obtain ⟨u, taken, rfl⟩ := List.exists_cons_of_ne_nil nonempty
        obtain ⟨rfl, rfl⟩ := List.cons.inj split
        rw [List.forall_mem_cons] at passed
        have first := ne_semicolon_of_passable passed.1
        exact ⟨rest, skip_closed passed.2 hs first tail.ne_nil, tail⟩

/-- The errors are all at braces and `else` where an expression is expected. -/
def Reading.Stray (tokens : List Token) (r : Reading) : Prop :=
  ∀ f ∈ r.findings, ∃ t rest, Passes tokens (t :: rest) ∧
    (t.kind = .rightBrace ∨ t.kind = .kwElse) ∧ f = Finding.at t rest .expectedExpression

theorem Reading.Stray.passed {tokens rest : List Token} {r : Reading} (h : r.Stray rest)
    (passes : Passes tokens rest) : r.Stray tokens := by
  intro f mem
  obtain ⟨t, more, within, ht, same⟩ := h f mem
  exact ⟨t, more, passes.trans within, ht, same⟩

theorem Reading.Stray.blocking {tokens : List Token} {r : Reading} (h : r.Stray tokens) :
    r.blocking = r.findings := by
  refine List.filter_eq_self.2 fun f mem => ?_
  obtain ⟨t, rest, -, -, rfl⟩ := h f mem
  rfl

/-- What is left of a program is read to its end. -/
theorem program_tail {m : Nat} {tokens : List Token} (h : Tail tokens)
    (hm : 20 * tokens.length + 13 ≤ m) : ∃ r, program m tokens = .ok r ∧ r.Stray tokens := by
  induction m generalizing tokens with
  | zero => omega
  | succ m ih =>
    obtain ⟨t, tokens, rfl⟩ := List.exists_cons_of_ne_nil h.ne_nil
    by_cases ht : t.kind = .eof
    · exact ⟨Reading.empty, by rw [program, if_pos ht], by simp [Reading.Stray, Reading.empty]⟩
    cases h with
    | atEnd he => exact absurd he ht
    | @declared n _ rest s read tail =>
      have enough := declaration_steps (m := m) read tail.ne_nil (by omega)
      have spent := spends_declaration m (t :: tokens)
      rw [enough] at spent
      obtain ⟨r, others, errors⟩ := ih tail (by have := spent.least; omega)
      exact ⟨_, program_of_read ht enough others, errors.passed spent.passes⟩
    | @stray _ _ stray tail =>
      obtain ⟨after, skipped, left⟩ := skip_tail t.kind tail
      have behind := Passes.cons ht (skip_passes skipped)
      have goesOn : synchronize (t :: tokens) = .ok after := by rw [synchronize, if_neg ht, skipped]
      obtain ⟨r, others, errors⟩ := ih left (by
        have := (skip_passes skipped).length_le
        rw [List.length_cons] at hm
        omega)
      have stuck : declaration m (t :: tokens) = .stuck (t :: tokens) _ :=
        declaration_stuck (by omega) stray
      refine ⟨_, program_of_stuck ht stuck goesOn others, ?_⟩
      rw [Reading.Stray, Reading.cons, List.singleton_append, List.forall_mem_cons]
      exact ⟨⟨t, tokens, .refl _, stray, rfl⟩, errors.passed behind⟩

end Lox.Grammar
