import Lox.Proofs.Grammar.Leftover

/-!
# A `print` without its expression

A `print` without its expression is stuck at the semicolon, and so is every rule around it, up to
the declaration (`stumbles_declaration`): what stands before the keyword is read as if nothing was
missing, and no rule takes an error back. Behind the semicolon there is what is left of the program.
-/

namespace Lox.Grammar

variable {α β : Type}

theorem append_eq_append_cons {taken middle before rest : List Token} {p : Token}
    (h : before ++ p :: rest = taken ++ middle) :
    (∃ next, before = taken ++ next ∧ middle = next ++ p :: rest) ∨
      ∃ next, taken = before ++ p :: next ∧ rest = next ++ middle := by
  rcases List.append_eq_append_iff.1 h with ⟨next, rfl, here⟩ | ⟨next, rfl, here⟩
  · cases next with
    | nil => exact .inl ⟨[], by simp, here.symm⟩
    | cons u next =>
      obtain ⟨rfl, rfl⟩ := List.cons.inj here
      exact .inr ⟨next, rfl, rfl⟩
  · exact .inl ⟨next, rfl, here⟩

theorem exists_append_cons_eq_cons (before : List Token) (p : Token) :
    ∃ t others, (before ++ [p]).head? = some t ∧ t ∈ before ++ [p] ∧
      ∀ more, before ++ p :: more = t :: (others ++ more) := by
  cases before with
  | nil => exact ⟨p, [], rfl, by simp, fun _ => rfl⟩
  | cons t before => exact ⟨t, before ++ [p], rfl, by simp, fun more => by simp⟩

def Part.plain : Part → Bool
  | .parameters | .variable | .expressionStatement => true
  | p => p.inExpression

theorem Part.over_plain (p : Part) (h : p.plain = true) :
    p.production.over Part.plain (· ≠ .kwPrint) = true := by
  cases p with
  | operation levels => exact over_operation rfl (fun _ => rfl) (by rintro ⟨⟩ <;> rfl) levels
  | parameters | «variable» | expressionStatement => rfl
  | expression | unary | call | arguments | primary => rfl
  | _ => cases h

namespace Rule

/-- What the rule reads without errors it reads again if the same token follows. -/
def Repeats (x : Rule α) : Prop :=
  ∀ tokens v rest, x tokens = .read v rest [] → ∃ taken, tokens = taken ++ rest ∧
    ∀ t more more', rest = t :: more → x (taken ++ t :: more') = .read v (t :: more') []

theorem Local.repeats {E : Token → Token → Prop} {taking : Bool} {φ : α → α} {x : Rule α}
    (h : Local E taking id φ x x) (hE : ∀ t, E t t) (hφ : ∀ v, φ v = v) : Repeats x := by
  intro tokens v rest read
  obtain ⟨taken, split, -, again⟩ := (h tokens).read read
  refine ⟨taken, split, ?_⟩
  rintro t more more' rfl
  have same := again (t :: more') (.intro (hE t))
  rwa [Token.map_relabel_id, hφ] at same

/-- The rule has read on past a `print` at `p`. What stood behind the keyword was an expression and
a semicolon, and without the expression the rule is stuck at the semicolon. -/
structure StumblesAt (x : Rule α) (before : List Token) (p : Token) (rest after : List Token) :
    Prop where
  closed : ∃ taken semicolon left, rest = taken ++ semicolon :: left ∧
    (∀ t ∈ taken, t.kind ≠ .semicolon) ∧ semicolon.kind = .semicolon ∧ (Tail after → Tail left)
  stuck : ∀ semicolon more, semicolon.kind = .semicolon →
    x (before ++ p :: semicolon :: more) =
      .stuck (semicolon :: more) [Finding.at semicolon more .expectedExpression]

def Stumbles (x : Rule α) : Prop :=
  ∀ before p rest v after, p.kind = .kwPrint → x (before ++ p :: rest) = .read v after [] →
    after <:+ rest → StumblesAt x before p rest after

/-- A rule that reads no `print`. -/
def Spares (x : Rule α) : Prop :=
  ∀ tokens v rest, x tokens = .read v rest [] →
    ∃ taken, tokens = taken ++ rest ∧ ∀ t ∈ taken, t.kind ≠ .kwPrint

theorem Spares.stumbles {x : Rule α} (h : Spares x) : Stumbles x := by
  rintro before p rest v after hp read ⟨dropped, rfl⟩
  obtain ⟨taken, split, spared⟩ := h _ _ _ read
  have here : before ++ p :: dropped = taken := by
    apply List.append_cancel_right
    simpa using split
  exact absurd hp (spared p (by simp [← here]))

/-- A rule that reads no `print`, and the same again. -/
structure Plain (x : Rule α) : Prop where
  spares : Spares x
  repeats : Repeats x

section
variable {x y : Rule α} {f : α → Rule β}

theorem StumblesAt.of_eq {before next rest after : List Token} {p : Token}
    (h : StumblesAt y next p rest after)
    (same : ∀ more, x (before ++ p :: more) = y (next ++ p :: more)) :
    StumblesAt x before p rest after := by
  refine ⟨h.closed, fun semicolon more hs => ?_⟩
  rw [same]
  exact h.stuck semicolon more hs

theorem Repeats.again (h : Repeats x) {before next rest : List Token} {p : Token} {v : α}
    (read : x (before ++ p :: rest) = .read v (next ++ p :: rest) []) (more : List Token) :
    x (before ++ p :: more) = .read v (next ++ p :: more) [] := by
  obtain ⟨taken, split, same⟩ := h _ _ _ read
  obtain rfl : before = taken ++ next := by
    apply List.append_cancel_right
    simpa using split
  obtain ⟨t, others, -, -, here⟩ := exists_append_cons_eq_cons next p
  rw [List.append_assoc, here]
  exact same t _ _ (here rest)

/-- If the first step is stuck, so are both, and what the second one has read is left behind. -/
theorem Stumbles.bind (hx : Stumbles x) (again : Repeats x) (hf : ∀ v, Stumbles (f v))
    (back : ∀ v, (f v).Backs) : Stumbles (x >>= f) := by
  rintro before p rest w after hp read suffix
  obtain ⟨v, middle, first, second⟩ := bind_eq_read read
  obtain ⟨taken, split, -⟩ := again _ _ _ first
  obtain ⟨next, -, rfl⟩ | ⟨next, -, rfl⟩ := append_eq_append_cons split
  · have stumbles := hf v next p rest w after hp second suffix
    exact stumbles.of_eq fun more => bind_of_read (again.again first more)
  · have stumbles := hx before p _ v middle hp first (List.suffix_append ..)
    refine ⟨?_, fun semicolon more hs => ?_⟩
    · obtain ⟨taken, semicolon, left, split, unclosed, hs, tail⟩ := stumbles.closed
      exact ⟨taken, semicolon, left, split, unclosed, hs, fun h => tail (back v _ _ _ second h)⟩
    · rw [Rule.bind_apply, stumbles.stuck semicolon more hs]

theorem Stumbles.before (hx : Plain x) (hf : ∀ v, Stumbles (f v)) : Stumbles (x >>= f) := by
  rintro before p rest w after hp read suffix
  obtain ⟨v, middle, first, second⟩ := bind_eq_read read
  obtain ⟨taken, split, spared⟩ := hx.spares _ _ _ first
  obtain ⟨next, -, rfl⟩ | ⟨next, rfl, -⟩ := append_eq_append_cons split
  · have stumbles := hf v next p rest w after hp second suffix
    exact stumbles.of_eq fun more => bind_of_read (hx.repeats.again first more)
  · exact absurd hp (spared p (by simp))

theorem Stumbles.pure (v : α) : Stumbles (Pure.pure v) := by
  refine Spares.stumbles ?_
  rintro tokens _ _ ⟨⟩
  exact ⟨[], rfl, by simp⟩

theorem Stumbles.fail (fault : Fault) : Stumbles (fail fault : Rule α) := by
  rintro before p rest v after - ⟨⟩

theorem Stumbles.last (hx : Stumbles x) (again : Repeats x) (make : α → β) :
    Stumbles (x >>= fun v => Pure.pure (make v)) :=
  .bind hx again (fun _ => .pure _) fun _ => .pure _

theorem plain_expect {kind : Kind} (hk : kind ≠ .eof) (hp : kind ≠ .kwPrint) (what : String) :
    Plain (expect kind what) where
  spares := by
    intro tokens t rest read
    obtain ⟨rfl, rfl⟩ := expect_eq_read hk read
    exact ⟨[t], rfl, by simpa using hp⟩
  repeats := by
    have same : Local ElseAlike true id (Token.relabel id) (expect kind what) (expect kind what) :=
      .expect hk what
    exact same.repeats (fun _ => Iff.rfl) fun _ => rfl

theorem Locates.plain {form : Form} {E : Token → Token → Prop} {taking : Bool} {φ : α → α}
    (h : Locates form 0 x) (hf : form.over Part.plain (· ≠ .kwPrint) = true)
    (same : Local E taking id φ x x) (hE : ∀ t, E t t) (hφ : ∀ v, φ v = v) : Plain x where
  spares := by
    intro tokens v rest read
    have located := h tokens
    rw [read] at located
    obtain ⟨taken, split, mem, -⟩ := located
    refine ⟨taken, split, fun t ht => ?_⟩
    simpa using Derives.over Part.over_plain mem hf t.kind (List.mem_map_of_mem ht)
  repeats := same.repeats hE hφ

theorem Stumbles.expect {f : Token → Rule β} {kind : Kind} (hk : kind ≠ .eof)
    (hp : kind ≠ .kwPrint) (what : String) (hf : ∀ t, Stumbles (f t)) :
    Stumbles (expect kind what >>= f) :=
  .before (plain_expect hk hp what) hf

/-! The first token decides. -/

def StumblesFrom (t : Token) (x : Rule α) : Prop :=
  ∀ before p rest v after, (before ++ [p]).head? = some t → p.kind = .kwPrint →
    x (before ++ p :: rest) = .read v after [] → after <:+ rest → StumblesAt x before p rest after

theorem Stumbles.from (h : Stumbles x) (t : Token) : StumblesFrom t x :=
  fun before p rest v after _ => h before p rest v after

theorem Stumbles.of_first {f : Token → Rule α} (same : ∀ t rest, x (t :: rest) = f t (t :: rest))
    (hf : ∀ t, StumblesFrom t (f t)) : Stumbles x := by
  rintro before p rest v after hp read suffix
  obtain ⟨t, others, head, -, here⟩ := exists_append_cons_eq_cons before p
  have first (more : List Token) : x (before ++ p :: more) = f t (before ++ p :: more) := by
    rw [here, same]
  rw [first] at read
  exact (hf t before p rest v after head hp read suffix).of_eq first

theorem Stumbles.peek {f : Token → Rule α} (hf : ∀ t, StumblesFrom t (f t)) :
    Stumbles (peek >>= f) :=
  .of_first (fun t rest => peek_bind f t rest) hf

theorem Stumbles.whenAt {kind : Kind} (hx : ∀ t, t.kind = kind → StumblesFrom t x)
    (hy : Stumbles y) :
    Stumbles (Rule.check kind >>= fun found => if found = true then x else y) := by
  refine .of_first (f := fun t => if t.kind = kind then x else y) (fun t rest => ?_) fun t => ?_
  · rw [check_bind]
    by_cases ht : t.kind = kind
    · rw [if_pos (decide_eq_true ht), if_pos ht]
    · rw [if_neg (by simpa using ht), if_neg ht]
  · split
    · next ht => exact hx t ht
    · exact hy.from t

theorem StumblesFrom.cons {t : Token} (same : ∀ rest, x (t :: rest) = y rest)
    (first : t.kind = .kwPrint → ∀ rest v after, y rest = .read v after [] →
      StumblesAt x [] t rest after) (hy : Stumbles y) : StumblesFrom t x := by
  rintro before p rest v after head hp read suffix
  cases before with
  | nil =>
    obtain rfl : p = t := Option.some.inj head
    rw [List.nil_append, same] at read
    exact first hp rest v after read
  | cons u before =>
    obtain rfl : u = t := Option.some.inj head
    rw [List.cons_append, same] at read
    exact (hy before p rest v after hp read suffix).of_eq fun more => same (before ++ p :: more)

theorem advance_bind_cons {f : Token → Rule α} {t : Token} (notLast : t.kind ≠ .eof)
    (rest : List Token) : (advance >>= f) (t :: rest) = f t rest := by
  rw [advance_bind, if_neg notLast]

theorem StumblesFrom.advance {f : Token → Rule α} {t : Token} (notLast : t.kind ≠ .eof)
    (ht : t.kind ≠ .kwPrint) (hf : Stumbles (f t)) : StumblesFrom t (advance >>= f) :=
  .cons (advance_bind_cons notLast) (fun hp => absurd hp ht) hf

theorem Stumbles.following {kind : Kind} (hk : kind ≠ .eof) (hp : kind ≠ .kwPrint)
    (hx : Stumbles x) (again : Repeats x) : Stumbles (following kind x) := by
  refine .whenAt (fun t ht => ?_) (.pure _)
  exact .advance (ht ▸ hk) (ht ▸ hp) (.last hx again some)

end

end Rule

open Rule (Stumbles StumblesAt StumblesFrom Plain)

-- ---------------------------------------------------------------------------
-- Expressions
-- ---------------------------------------------------------------------------

section
variable {n : Nat} {e : Expr} {tokens rest : List Token}

/-! Something was read, so there are enough steps to see that nothing can be. -/

theorem unary_steps (h : unary n tokens = .read e rest []) : 2 ≤ n := by
  match n, tokens, h with
  | 1, t :: tokens, h =>
    rw [unary, Rule.peek_bind] at h
    split at h
    · rw [Rule.advance_bind] at h
      cases h
    · cases h
  | n + 2, _, _ => exact Nat.le_add_left 2 n

theorem operation_steps {levels : List Level} (h : operation n levels tokens = .read e rest []) :
    levels.length + 3 ≤ n := by
  induction levels generalizing n e rest with
  | nil =>
    cases n with
    | zero => cases h
    | succ n => exact Nat.succ_le_succ (unary_steps h)
  | cons level tighter ih =>
    cases n with
    | zero => cases h
    | succ n =>
      obtain ⟨left, middle, first, -⟩ := Rule.bind_eq_read h
      exact Nat.succ_le_succ (ih first)

theorem expression_steps (h : expression n tokens = .read e rest []) : 10 ≤ n := by
  cases n with
  | zero => cases h
  | succ n =>
    obtain ⟨left, middle, first, -⟩ := Rule.bind_eq_read h
    exact Nat.succ_le_succ (operation_steps first)

end

section
variable (n : Nat)

theorem plain_expression : Plain (expression n) :=
  (locates_expression n (Heads.zero _)).plain rfl (local_expression (Nat.le_refl n)) (fun _ => rfl)
    Expr.relabel_id

theorem plain_optionalBefore {kind : Kind} (closes : Closes kind)
    (hk : kind ∉ Part.expression.starts) : Plain (optionalBefore kind n) :=
  (locates_optionalBefore n (Heads.zero _) closes hk).plain rfl
    (local_optionalBefore (Nat.le_refl n) kind) (fun _ => rfl) Expr.option_map_relabel_id

theorem plain_parameters : Plain (Rule.unlessAt .rightParen [] (parameters n 0)) := by
  have located : Rule.Locates (.optional (.part .parameters)) 0
      (Rule.unlessAt .rightParen [] (parameters n 0)) :=
    .unlessAt _ (Heads.zero _) (locates_parameters n (Heads.zero _)) rfl (by decide)
  exact located.plain rfl (.unlessAt _ _ (local_parameters (Nat.le_refl n) 0)) (fun _ => rfl)
    Token.map_relabel_id

theorem plain_variableRest : Plain (variableRest n) :=
  (locates_variableRest n).plain rfl (local_variableRest (Nat.le_refl n)) (fun _ => Iff.rfl)
    Stmt.relabel_id

theorem plain_expressionStatement : Plain (expressionStatement n) :=
  (locates_expressionStatement n).plain rfl (local_expressionStatement (Nat.le_refl n))
    (fun _ => Iff.rfl) Stmt.relabel_id

theorem plain_firstClause : Plain (firstClause n) :=
  (locates_firstClause n).plain rfl (local_firstClause (Nat.le_refl n)) (fun _ => Iff.rfl)
    Stmt.option_map_relabel_id

theorem repeats_statement : (statement n).Repeats :=
  (local_statement (Nat.le_refl n)).repeats (fun _ => Iff.rfl) Stmt.relabel_id

theorem repeats_else : (Rule.following .kwElse (statement n)).Repeats := by
  have same : Rule.Local ElseAlike false id (Option.map (Stmt.relabel id))
      (Rule.following .kwElse (statement n)) (Rule.following .kwElse (statement n)) :=
    .following (by decide) (elseAlike_relabel id) (fun _ _ alike => alike)
      (local_statement (Nat.le_refl n))
  exact same.repeats (fun _ => Iff.rfl) Stmt.option_map_relabel_id

theorem repeats_declaration : (declaration n).Repeats :=
  (local_declaration (Nat.le_refl n)).repeats (fun _ => Iff.rfl) Stmt.relabel_id

theorem repeats_blockRest : (blockRest n).Repeats :=
  (local_blockRest (Nat.le_refl n)).repeats (fun _ => Iff.rfl) Stmt.relabelList_id

end

-- ---------------------------------------------------------------------------
-- Statements
-- ---------------------------------------------------------------------------

theorem stumblesFrom_print {n : Nat} {t : Token} (ht : t.kind = .kwPrint) {x : Rule Stmt}
    (hx : x = (Rule.advance >>= fun _ => expression n >>= fun value =>
      Rule.expect .semicolon "';' after value" >>= fun _ => pure (Stmt.print value))) :
    StumblesFrom t x := by
  subst hx
  refine .cons (Rule.advance_bind_cons (by simp [ht])) (fun _ rest v after read => ?_) ?_
  · obtain ⟨e, _, taken, semicolon, first, rfl, rfl, -, passed, hs⟩ := closed_expression_cases read
    have unclosed : ∀ t ∈ taken, t.kind ≠ .semicolon :=
      fun t mem => ne_semicolon_of_passable (passed t mem)
    refine ⟨⟨taken, semicolon, after, rfl, unclosed, hs, id⟩, fun semicolon more hs => ?_⟩
    have stuck : expression n (semicolon :: more) = .stuck (semicolon :: more) _ :=
      expression_stuck (expression_steps first) (by rw [hs]; decide)
    rw [List.nil_append, Rule.advance_bind_cons (by simp [ht]), Rule.bind_apply, stuck]
  · exact .before (plain_expression n) fun _ =>
      .before (Rule.plain_expect (by decide) (by decide) _)
      fun _ => .pure _

mutual

theorem stumbles_declaration : ∀ n : Nat, Stumbles (declaration n)
  | 0 => .fail _
  | n + 1 => by
    refine .peek fun t => ?_
    split
    · next ht => exact .advance (by simp [ht]) (by simp [ht]) (stumbles_functionRest n)
    split
    · next ht =>
      exact .advance (by simp [ht]) (by simp [ht]) (plain_variableRest n).spares.stumbles
    · exact (stumbles_statement n).from t

theorem stumbles_functionRest : ∀ n : Nat, Stumbles (functionRest n)
  | 0 => .fail _
  | n + 1 => by
    refine .expect (by decide) (by decide) _ fun name => .expect (by decide) (by decide) _
      fun _ => ?_
    refine .before (plain_parameters n) fun names => .expect (by decide) (by decide) _ fun _ => ?_
    refine .expect (by decide) (by decide) _ fun _ => ?_
    exact .last (stumbles_blockRest n) (repeats_blockRest n) _

theorem stumbles_statement : ∀ n : Nat, Stumbles (statement n)
  | 0 => .fail _
  | n + 1 => by
    refine .peek fun t => ?_
    cases ht : t.kind with
    | kwFor => exact .advance (by simp [ht]) (by simp [ht]) (stumbles_forRest n)
    | kwIf => exact .advance (by simp [ht]) (by simp [ht]) (stumbles_ifRest n)
    | kwPrint => exact stumblesFrom_print ht rfl
    | kwReturn =>
      refine .advance (by simp [ht]) (by simp [ht]) ?_
      refine .before (plain_optionalBefore n (by decide) (by decide)) fun value => ?_
      exact .expect (by decide) (by decide) _ fun _ => .pure _
    | kwWhile =>
      refine .advance (by simp [ht]) (by simp [ht]) (.expect (by decide) (by decide) _ fun _ => ?_)
      refine .before (plain_expression n) fun condition => .expect (by decide) (by decide) _
        fun _ => ?_
      exact .last (stumbles_statement n) (repeats_statement n) _
    | leftBrace =>
      refine .advance (by simp [ht]) (by simp [ht]) ?_
      exact .last (stumbles_blockRest n) (repeats_blockRest n) _
    | _ => exact (plain_expressionStatement n).spares.stumbles.from t

theorem stumbles_forRest : ∀ n : Nat, Stumbles (forRest n)
  | 0 => .fail _
  | n + 1 => by
    refine .expect (by decide) (by decide) _ fun _ => ?_
    refine .before (plain_firstClause n) fun initializer => ?_
    refine .before (plain_optionalBefore n (by decide) (by decide)) fun condition => ?_
    refine .expect (by decide) (by decide) _ fun _ => ?_
    refine .before (plain_optionalBefore n (by decide) (by decide)) fun increment => ?_
    refine .expect (by decide) (by decide) _ fun _ => ?_
    exact .last (stumbles_statement n) (repeats_statement n) _

theorem stumbles_ifRest : ∀ n : Nat, Stumbles (ifRest n)
  | 0 => .fail _
  | n + 1 => by
    refine .expect (by decide) (by decide) _ fun _ =>
      .before (plain_expression n) fun condition => ?_
    refine .expect (by decide) (by decide) _ fun _ => ?_
    refine .bind (stumbles_statement n) (repeats_statement n) (fun consequent => ?_) fun _ => ?_
    · exact .last (.following (by decide) (by decide) (stumbles_statement n) (repeats_statement n))
        (repeats_else n) _
    · exact .bind (backs_else n) fun _ => .pure _

theorem stumbles_blockRest : ∀ n : Nat, Stumbles (blockRest n)
  | 0 => .fail _
  | n + 1 => by
    refine .peek fun t => ?_
    split
    · exact (Stumbles.expect (by decide) (by decide) _ fun _ => .pure _).from t
    · refine Stumbles.from (.bind (stumbles_declaration n) (repeats_declaration n) (fun first => ?_)
        fun first => ?_) t
      · exact .last (stumbles_blockRest n) (repeats_blockRest n) _
      · exact .bind (backs_blockRest n) fun _ => .pure _

end

end Lox.Grammar
