import Lox.Grammar.Program

/-!
# What rules take and report

A rule takes tokens off the front and leaves the others as they are, the end token among them; every
statement takes one at least. Some errors only are noted, and reading goes on; one that blocks is
found where a rule gets stuck, at the first token left, and it is the last one found. None of this
depends on the tokens or on the number of steps.
-/

namespace Lox.Grammar

variable {α β : Type}

/-- Whether reading cannot go on at the error. -/
def Finding.blocks (f : Finding) : Bool :=
  match f.error.cause with
  | .expectedExpression | .expected _ => true
  | .invalidTarget | .tooManyArguments | .tooManyParameters => false

def Finding.at (t : Token) (rest : List Token) (cause : GrammarCause) : Finding :=
  { error := GrammarError.at t cause, left := beforeEnd (t :: rest) }

@[simp]
theorem Finding.at_left (t : Token) (rest : List Token) (cause : GrammarCause) :
    (Finding.at t rest cause).left = beforeEnd (t :: rest) :=
  rfl

/-- What is left of tokens: some are taken off the front, the end token not among them. -/
def Passes (tokens rest : List Token) : Prop :=
  ∃ taken, tokens = taken ++ rest ∧ ∀ t ∈ taken, t.kind ≠ .eof

/-- A rule has read something: `least` or more of the tokens are gone, and no error blocks. -/
structure Spent (least : Nat) (tokens rest : List Token) (findings : List Finding) : Prop where
  passes : Passes tokens rest
  least : rest.length + least ≤ tokens.length
  harmless : ∀ f ∈ findings, f.blocks = false

/-- A rule is stuck: the last error is the one that blocks, and it stands at the first token
left. -/
structure Blocked (tokens rest : List Token) (findings : List Finding) : Prop where
  passes : Passes tokens rest
  last : ∃ noted t more cause, rest = t :: more ∧ findings = noted ++ [Finding.at t more cause] ∧
    (Finding.at t more cause).blocks ∧ ∀ f ∈ noted, f.blocks = false

def Reply.Accounts (least : Nat) (tokens : List Token) : Reply α → Prop
  | .read _ rest findings => Spent least tokens rest findings
  | .stuck rest findings => Blocked tokens rest findings
  | .broken _ => True

theorem Passes.refl (tokens : List Token) : Passes tokens tokens :=
  ⟨[], rfl, by simp⟩

theorem Passes.cons {t : Token} {tokens rest : List Token} (ht : t.kind ≠ .eof)
    (h : Passes tokens rest) : Passes (t :: tokens) rest := by
  obtain ⟨taken, rfl, before⟩ := h
  exact ⟨t :: taken, rfl, by simpa using ⟨ht, before⟩⟩

theorem Passes.trans {tokens middle rest : List Token} (h : Passes tokens middle)
    (h' : Passes middle rest) : Passes tokens rest := by
  obtain ⟨taken, rfl, before⟩ := h
  obtain ⟨taken', rfl, before'⟩ := h'
  exact ⟨taken ++ taken', by simp, by simpa [or_imp, forall_and] using ⟨before, before'⟩⟩

theorem Passes.suffix {tokens rest : List Token} (h : Passes tokens rest) : rest <:+ tokens := by
  obtain ⟨taken, rfl, -⟩ := h
  exact List.suffix_append taken rest

theorem Passes.length_le {tokens rest : List Token} (h : Passes tokens rest) :
    rest.length ≤ tokens.length :=
  h.suffix.length_le

theorem Blocked.ne_nil {tokens rest : List Token} {findings : List Finding}
    (h : Blocked tokens rest findings) : findings ≠ [] := by
  obtain ⟨noted, t, more, cause, -, rfl, -⟩ := h.last
  exact List.append_ne_nil_of_right_ne_nil noted (List.cons_ne_nil _ _)

theorem Blocked.rest_ne_nil {tokens rest : List Token} {findings : List Finding}
    (h : Blocked tokens rest findings) : rest ≠ [] := by
  obtain ⟨noted, t, more, cause, rfl, -⟩ := h.last
  exact List.cons_ne_nil _ _

-- ---------------------------------------------------------------------------
-- Kinds that are not the last
-- ---------------------------------------------------------------------------

theorem ne_eof_of_isLiteral {kind : Kind} (h : isLiteral kind) : kind ≠ .eof := by
  rintro rfl
  cases h

theorem ne_eof_of_isUnary {kind : Kind} (h : isUnary kind) : kind ≠ .eof := by
  rintro rfl
  cases h

theorem ne_eof_of_operates {level : Level} {kind : Kind} (h : level.operates kind) :
    kind ≠ .eof := by
  rintro rfl
  cases level <;> cases h

namespace Rule

/-! The first token decides. -/

theorem peek_bind (f : Token → Rule α) (t : Token) (rest : List Token) :
    (peek >>= f) (t :: rest) = f t (t :: rest) :=
  Reply.after_nil _

theorem check_bind (kind : Kind) (f : Bool → Rule α) (t : Token) (rest : List Token) :
    (check kind >>= f) (t :: rest) = f (decide (t.kind = kind)) (t :: rest) :=
  Reply.after_nil _

theorem advance_bind (f : Token → Rule α) (t : Token) (rest : List Token) :
    (advance >>= f) (t :: rest) = f t (if t.kind = .eof then t :: rest else rest) :=
  Reply.after_nil _

theorem expect_cons (kind : Kind) (what : String) (t : Token) (rest : List Token) :
    expect kind what (t :: rest) =
      if t.kind = kind then advance (t :: rest) else stuck (.expected what) (t :: rest) := by
  unfold expect
  rw [check_bind]
  by_cases ht : t.kind = kind <;> simp [ht]

theorem expect_bind (kind : Kind) (what : String) (f : Token → Rule α) (t : Token)
    (rest : List Token) :
    (expect kind what >>= f) (t :: rest) =
      if t.kind = kind then (advance >>= f) (t :: rest)
      else stuck (.expected what) (t :: rest) := by
  rw [bind_apply, expect_cons]
  by_cases ht : t.kind = kind
  · rw [if_pos ht, if_pos ht]
    rfl
  · rw [if_neg ht, if_neg ht]
    rfl

theorem expect_eq_read {kind : Kind} (hk : kind ≠ .eof) {what : String} {tokens rest : List Token}
    {t : Token} {found : List Finding} (h : expect kind what tokens = .read t rest found) :
    tokens = t :: rest ∧ t.kind = kind := by
  cases tokens with
  | nil => cases h
  | cons u tokens =>
    rw [expect_cons] at h
    split at h
    · next hu =>
      rw [advance, if_neg (hu ▸ hk)] at h
      cases h
      exact ⟨rfl, hu⟩
    · cases h

/-- A rule that takes `least` tokens or more whenever it reads something. -/
def Spends (least : Nat) (rule : Rule α) : Prop :=
  ∀ tokens, (rule tokens).Accounts least tokens

theorem spent_refl (tokens : List Token) : Spent 0 tokens tokens [] :=
  ⟨.refl tokens, Nat.le_refl _, by simp⟩

theorem Spends.pure (value : α) : Spends 0 (Pure.pure value) :=
  spent_refl

theorem Spends.fail (least : Nat) (fault : Fault) : Spends least (fail fault : Rule α) :=
  fun _ => trivial

theorem Spends.peek : Spends 0 peek
  | [] => trivial
  | t :: rest => spent_refl (t :: rest)

theorem Spends.advance : Spends 0 advance
  | [] => trivial
  | t :: rest => by
    rw [Rule.advance]
    split
    · exact spent_refl (t :: rest)
    · next ht => exact ⟨.cons ht (.refl rest), Nat.le_succ _, by simp⟩

theorem Spends.bind {j k : Nat} {x : Rule α} {f : α → Rule β} (hx : x.Spends j)
    (hf : ∀ a, (f a).Spends k) : (x >>= f).Spends (j + k) := by
  intro tokens
  have first := hx tokens
  rw [bind_apply]
  cases hr : x tokens with
  | read a middle noted =>
    rw [hr] at first
    have second := hf a middle
    dsimp only
    cases hs : f a middle with
    | read b rest findings =>
      rw [hs] at second
      refine ⟨first.passes.trans second.passes, ?_, ?_⟩
      · have := first.least
        have := second.least
        omega
      · simpa [or_imp, forall_and] using ⟨first.harmless, second.harmless⟩
    | stuck rest findings =>
      rw [hs] at second
      obtain ⟨noted', t, more, cause, here, rfl, blocks, harmless⟩ := second.last
      refine ⟨first.passes.trans second.passes, noted ++ noted', t, more, cause, here, ?_,
        blocks, ?_⟩
      · exact (List.append_assoc ..).symm
      · simpa [or_imp, forall_and] using ⟨first.harmless, harmless⟩
    | broken fault => trivial
  | stuck rest findings =>
    rw [hr] at first
    exact first
  | broken fault => trivial

theorem Spends.weaken {j k : Nat} {x : Rule α} (hx : x.Spends k) (hj : j ≤ k) : x.Spends j := by
  intro tokens
  have spent := hx tokens
  cases hr : x tokens with
  | read a rest findings =>
    rw [hr] at spent
    exact ⟨spent.passes, Nat.le_trans (Nat.add_le_add_left hj _) spent.least, spent.harmless⟩
  | stuck rest findings =>
    rw [hr] at spent
    exact spent
  | broken fault => trivial

theorem Spends.before {j k : Nat} {x : Rule α} {f : α → Rule β} (hx : x.Spends j)
    (hf : ∀ a, (f a).Spends k) : (x >>= f).Spends k :=
  (hx.bind hf).weaken (Nat.le_add_left k j)

theorem Spends.first {k : Nat} {x : Rule α} {f : α → Rule β} (hx : x.Spends k)
    (hf : ∀ a, (f a).Spends 0) : (x >>= f).Spends k :=
  hx.bind hf

theorem Spends.ite {k : Nat} {c : Prop} [Decidable c] {x y : Rule α} (hx : x.Spends k)
    (hy : y.Spends k) : (if c then x else y).Spends k := by
  split
  · exact hx
  · exact hy

theorem Spends.check (kind : Kind) : (check kind).Spends 0 :=
  .before .peek fun _ => .pure _

theorem Spends.finding {k : Nat} {cause : GrammarCause} {f : Finding → Rule α}
    (hf : ∀ a, a.error.cause = cause → (f a).Spends k) : (finding cause >>= f).Spends k
  | [] => trivial
  | t :: rest => by
    have found : Rule.finding cause (t :: rest) = .read (Finding.at t rest cause) (t :: rest)
        [] := rfl
    rw [bind_apply, found]
    dsimp only
    rw [Reply.after_nil]
    exact hf _ rfl (t :: rest)

theorem Spends.note {f : Finding} (h : f.blocks = false) : Spends 0 (note f) :=
  fun tokens => ⟨.refl tokens, Nat.le_refl _, by simpa using h⟩

theorem Spends.noteHereIf (wrong : Bool) {cause : GrammarCause}
    (h : ∀ f : Finding, f.error.cause = cause → f.blocks = false) :
    (noteHereIf wrong cause).Spends 0 :=
  .ite (.finding fun f hf => .note (h f hf)) (.pure _)

theorem Spends.stuck (least : Nat) {cause : GrammarCause}
    (h : ∀ f : Finding, f.error.cause = cause → f.blocks = true) :
    (stuck cause : Rule α).Spends least
  | [] => trivial
  | t :: rest => ⟨.refl _, [], t, rest, cause, rfl, rfl, h _ rfl, by simp⟩

theorem Spends.unlessAt {x : Rule α} (kind : Kind) (absent : α) (hx : x.Spends 0) :
    (unlessAt kind absent x).Spends 0 :=
  .before (.check kind) fun _ => .ite (.pure _) hx

theorem Spends.following {k : Nat} {x : Rule α} (kind : Kind) (hx : x.Spends k) :
    (following kind x).Spends 0 :=
  .before (.check kind) fun _ =>
    .ite (.before .advance fun _ => .before hx fun _ => .pure _) (.pure _)

theorem Spends.expect {kind : Kind} (hk : kind ≠ .eof) (what : String) :
    (expect kind what).Spends 1
  | [] => trivial
  | t :: rest => by
    rw [expect_cons]
    split
    · next ht =>
      have notLast : t.kind ≠ .eof := ht ▸ hk
      rw [Rule.advance, if_neg notLast]
      exact ⟨.cons notLast (.refl rest), Nat.le_refl _, by simp⟩
    · exact Spends.stuck 1 (fun f hf => by simp [Finding.blocks, hf]) _

end Rule

open Rule (Spends)

-- ---------------------------------------------------------------------------
-- Expressions
-- ---------------------------------------------------------------------------

mutual

theorem spends_expression : ∀ n : Nat, (expression n).Spends 0
  | 0 => .fail 0 _
  | n + 1 => by
    refine .before (spends_operation n Level.all) fun left => ?_
    refine .before (.check .equal) fun assigned => .ite ?_ (.pure left)
    refine .finding fun wrong cause => .before .advance fun _ => ?_
    refine .before (spends_expression n) fun value => ?_
    split
    · exact .pure _
    · exact .before (.note (by simp [Finding.blocks, cause])) fun _ => .pure _

theorem spends_operation : ∀ (n : Nat) (levels : List Level), (operation n levels).Spends 0
  | 0, _ => .fail 0 _
  | n + 1, [] => spends_unary n
  | n + 1, level :: tighter => by
    refine .before (spends_operation n tighter) fun left => ?_
    exact spends_operationRest n level tighter left

theorem spends_operationRest : ∀ (n : Nat) (level : Level) (tighter : List Level) (left : Expr),
    (operationRest n level tighter left).Spends 0
  | 0, _, _, _ => .fail 0 _
  | n + 1, level, tighter, left => by
    refine .before .peek fun next => .ite ?_ (.pure left)
    refine .before .advance fun operator => ?_
    refine .before (spends_operation n tighter) fun right => ?_
    exact spends_operationRest n level tighter (level.join left operator right)

theorem spends_unary : ∀ n : Nat, (unary n).Spends 0
  | 0 => .fail 0 _
  | n + 1 => by
    refine .before .peek fun next => .ite ?_ ?_
    · refine .before .advance fun operator => ?_
      exact .before (spends_unary n) fun operand => .pure _
    · exact .before (spends_primary n) fun callee => spends_callRest n callee

theorem spends_callRest : ∀ (n : Nat) (callee : Expr), (callRest n callee).Spends 0
  | 0, _ => .fail 0 _
  | n + 1, callee => by
    refine .before (.check .leftParen) fun called => .ite ?_ (.pure callee)
    refine .before .advance fun _ => ?_
    refine .before (.unlessAt .rightParen [] (spends_arguments n 0)) fun given => ?_
    refine .before (.expect (by decide) _) fun paren => ?_
    exact spends_callRest n (.call callee paren given)

theorem spends_arguments : ∀ n count : Nat, (arguments n count).Spends 0
  | 0, _ => .fail 0 _
  | n + 1, count => by
    have limit : (Rule.noteHereIf (mostArguments ≤ count) .tooManyArguments).Spends 0 :=
      .noteHereIf _ fun f hf => by simp [Finding.blocks, hf]
    refine .before limit fun _ => ?_
    refine .before (spends_expression n) fun first => ?_
    refine .before (.check .comma) fun more => .ite ?_ (.pure [first])
    refine .before .advance fun _ => ?_
    exact .before (spends_arguments n (count + 1)) fun others => .pure _

theorem spends_primary : ∀ n : Nat, (primary n).Spends 0
  | 0 => .fail 0 _
  | n + 1 => by
    refine .before .peek fun next => ?_
    split
    · refine .before .advance fun t => ?_
      split
      · exact .pure _
      · exact .fail 0 _
    split
    · exact .before .advance fun name => .pure _
    split
    · refine .before .advance fun _ => ?_
      refine .before (spends_expression n) fun inner => ?_
      exact .before (.expect (by decide) _) fun _ => .pure _
    · exact .stuck 0 fun f hf => by simp [Finding.blocks, hf]

end

-- ---------------------------------------------------------------------------
-- Statements
-- ---------------------------------------------------------------------------

theorem spends_parameters : ∀ n count : Nat, (parameters n count).Spends 0
  | 0, _ => .fail 0 _
  | n + 1, count => by
    have limit : (Rule.noteHereIf (mostArguments ≤ count) .tooManyParameters).Spends 0 :=
      .noteHereIf _ fun f hf => by simp [Finding.blocks, hf]
    refine .before limit fun _ => ?_
    refine .before (.expect (by decide) _) fun first => ?_
    refine .before (.check .comma) fun more => .ite ?_ (.pure [first])
    refine .before .advance fun _ => ?_
    exact .before (spends_parameters n (count + 1)) fun others => .pure _

theorem spends_optionalBefore (kind : Kind) (n : Nat) : (optionalBefore kind n).Spends 0 := by
  refine .unlessAt kind none ?_
  exact .before (spends_expression n) fun value => .pure _

theorem spends_variableRest (n : Nat) : (variableRest n).Spends 1 := by
  refine .first (.expect (by decide) _) fun name => ?_
  refine .before (.following .equal (spends_expression n)) fun initializer => ?_
  exact .before (.expect (by decide) _) fun _ => .pure _

theorem spends_expressionStatement (n : Nat) : (expressionStatement n).Spends 1 := by
  refine .before (spends_expression n) fun value => ?_
  exact .first (.expect (by decide) _) fun _ => .pure _

theorem spends_firstClause (n : Nat) : (firstClause n).Spends 0 := by
  have wrapped {x : Rule Stmt} (hx : x.Spends 1) : (some <$> x).Spends 0 :=
    .before hx fun _ => .pure _
  refine .before .peek fun next => ?_
  split
  · exact .before .advance fun _ => .pure none
  split
  · exact .before .advance fun _ => wrapped (spends_variableRest n)
  · exact wrapped (spends_expressionStatement n)

mutual

theorem spends_declaration : ∀ n : Nat, (declaration n).Spends 1
  | 0 => .fail 1 _
  | n + 1 => by
    refine .before .peek fun next => ?_
    split
    · exact .before .advance fun _ => spends_functionRest n
    split
    · exact .before .advance fun _ => spends_variableRest n
    · exact spends_statement n

theorem spends_functionRest : ∀ n : Nat, (functionRest n).Spends 1
  | 0 => .fail 1 _
  | n + 1 => by
    refine .first (.expect (by decide) _) fun name => ?_
    refine .before (.expect (by decide) _) fun _ => ?_
    refine .before (.unlessAt .rightParen [] (spends_parameters n 0)) fun names => ?_
    refine .before (.expect (by decide) _) fun _ => ?_
    refine .before (.expect (by decide) _) fun _ => ?_
    exact .before (spends_blockRest n) fun body => .pure _

theorem spends_statement : ∀ n : Nat, (statement n).Spends 1
  | 0 => .fail 1 _
  | n + 1 => by
    refine .before .peek fun next => ?_
    split
    · exact .before .advance fun _ => spends_forRest n
    · exact .before .advance fun _ => spends_ifRest n
    · refine .before .advance fun _ => ?_
      refine .before (spends_expression n) fun value => ?_
      exact .first (.expect (by decide) _) fun _ => .pure _
    · refine .before .advance fun keyword => ?_
      refine .before (spends_optionalBefore .semicolon n) fun value => ?_
      exact .first (.expect (by decide) _) fun _ => .pure _
    · refine .before .advance fun _ => ?_
      refine .first (.expect (by decide) _) fun _ => ?_
      refine .before (spends_expression n) fun condition => ?_
      refine .before (.expect (by decide) _) fun _ => ?_
      exact .before (spends_statement n) fun body => .pure _
    · refine .before .advance fun _ => ?_
      exact .first (spends_blockRest n) fun body => .pure _
    · exact spends_expressionStatement n

theorem spends_forRest : ∀ n : Nat, (forRest n).Spends 1
  | 0 => .fail 1 _
  | n + 1 => by
    refine .first (.expect (by decide) _) fun _ => ?_
    refine .before (spends_firstClause n) fun initializer => ?_
    refine .before (spends_optionalBefore .semicolon n) fun condition => ?_
    refine .before (.expect (by decide) _) fun _ => ?_
    refine .before (spends_optionalBefore .rightParen n) fun increment => ?_
    refine .before (.expect (by decide) _) fun _ => ?_
    exact .before (spends_statement n) fun body => .pure _

theorem spends_ifRest : ∀ n : Nat, (ifRest n).Spends 1
  | 0 => .fail 1 _
  | n + 1 => by
    refine .first (.expect (by decide) _) fun _ => ?_
    refine .before (spends_expression n) fun condition => ?_
    refine .before (.expect (by decide) _) fun _ => ?_
    refine .before (spends_statement n) fun consequent => ?_
    exact .before (.following .kwElse (spends_statement n)) fun alternative => .pure _

theorem spends_blockRest : ∀ n : Nat, (blockRest n).Spends 1
  | 0 => .fail 1 _
  | n + 1 => by
    refine .before .peek fun next => .ite ?_ ?_
    · exact .first (.expect (by decide) _) fun _ => .pure []
    · refine .first (spends_declaration n) fun first => ?_
      exact .before (spends_blockRest n) fun others => .pure _

end

-- ---------------------------------------------------------------------------
-- Programs
-- ---------------------------------------------------------------------------

theorem skip_passes {previous : Kind} {tokens rest : List Token}
    (h : skip previous tokens = .ok rest) : Passes tokens rest := by
  induction tokens generalizing previous with
  | nil => cases h
  | cons t tokens ih =>
    unfold skip at h
    split at h
    · cases h
      exact .refl _
    · next ht => exact .cons (by simp_all) (ih h)

theorem synchronize_passes {t : Token} {tokens rest : List Token}
    (h : synchronize (t :: tokens) = .ok rest) :
    t.kind = .eof ∧ rest = t :: tokens ∨ t.kind ≠ .eof ∧ Passes tokens rest := by
  rw [synchronize] at h
  split at h
  · next ht =>
    cases h
    exact .inl ⟨ht, rfl⟩
  · next ht => exact .inr ⟨ht, skip_passes h⟩

theorem synchronize_suffix {tokens rest : List Token} (h : synchronize tokens = .ok rest) :
    rest <:+ tokens := by
  cases tokens with
  | nil => cases h
  | cons t tokens =>
    obtain ⟨-, rfl⟩ | ⟨-, passes⟩ := synchronize_passes h
    · exact List.suffix_refl _
    · exact passes.suffix.trans (List.suffix_cons t tokens)

theorem program_map_eq_ok {n : Nat} {tokens : List Token} {change : Reading → Reading}
    {reading : Reading} (h : (program n tokens).map change = .ok reading) :
    ∃ r, program n tokens = .ok r ∧ change r = reading := by
  cases hp : program n tokens with
  | error fault =>
    rw [hp] at h
    cases h
  | ok r =>
    rw [hp] at h
    cases h
    exact ⟨r, rfl, rfl⟩

theorem program_map_eq_error {n : Nat} {tokens : List Token} {change : Reading → Reading}
    {fault : Fault} (h : (program n tokens).map change = .error fault) :
    program n tokens = .error fault := by
  cases hp : program n tokens with
  | error _ =>
    rw [hp] at h
    cases h
    rfl
  | ok _ =>
    rw [hp] at h
    cases h

theorem program_of_read {n : Nat} {t : Token} {rest after : List Token} {s : Stmt}
    {found : List Finding} {r : Reading} (ht : t.kind ≠ .eof)
    (first : declaration n (t :: rest) = .read s after found) (others : program n after = .ok r) :
    program (n + 1) (t :: rest) = .ok (r.cons (some s) found) := by
  rw [program, if_neg ht, first]
  dsimp only
  rw [others]
  rfl

theorem program_of_stuck {n : Nat} {t : Token} {rest stop after : List Token} {found : List Finding}
    {r : Reading} (ht : t.kind ≠ .eof) (first : declaration n (t :: rest) = .stuck stop found)
    (skipped : synchronize stop = .ok after) (others : program n after = .ok r) :
    program (n + 1) (t :: rest) = .ok (r.cons none found) := by
  rw [program, if_neg ht, first]
  dsimp only
  rw [skipped]
  dsimp only
  rw [others]
  rfl

theorem program_cases {n : Nat} {t : Token} {rest : List Token} {r : Reading}
    (h : program (n + 1) (t :: rest) = .ok r) (ht : t.kind ≠ .eof) :
    (∃ s after found r₁, declaration n (t :: rest) = .read s after found ∧
      program n after = .ok r₁ ∧
        r = r₁.cons (some s) found) ∨
      ∃ stop found after r₁, declaration n (t :: rest) = .stuck stop found ∧
        synchronize stop = .ok after ∧ program n after = .ok r₁ ∧ r = r₁.cons none found := by
  rw [program, if_neg ht] at h
  cases hd : declaration n (t :: rest) with
  | read s after found =>
    rw [hd] at h
    obtain ⟨r₁, others, rfl⟩ := program_map_eq_ok h
    exact .inl ⟨s, after, found, r₁, rfl, others, rfl⟩
  | stuck stop found =>
    rw [hd] at h
    dsimp only at h
    cases hs : synchronize stop with
    | ok after =>
      rw [hs] at h
      obtain ⟨r₁, others, rfl⟩ := program_map_eq_ok h
      exact .inr ⟨stop, found, after, r₁, rfl, hs, others, rfl⟩
    | error fault =>
      rw [hs] at h
      cases h
  | broken fault =>
    rw [hd] at h
    cases h

theorem program_cons_eq_ok {n : Nat} {t : Token} {rest : List Token} {r : Reading}
    (h : program (n + 1) (t :: rest) = .ok r) (hf : r.findings = []) (ht : t.kind ≠ .eof) :
    ∃ s after r', declaration n (t :: rest) = .read s after [] ∧ program n after = .ok r' ∧
      r'.findings = [] ∧ r.statements = s :: r'.statements := by
  obtain ⟨s, after, found, r', first, others, rfl⟩ | ⟨stop, found, _, r', first, -, -, rfl⟩ :=
    program_cases h ht
  · obtain ⟨rfl, hf⟩ := List.append_eq_nil_iff.1 hf
    exact ⟨s, after, r', first, others, hf, rfl⟩
  · -- A declaration that is stuck has noted an error, and it stays noted.
    have blocked := spends_declaration n (t :: rest)
    rw [first] at blocked
    exact absurd (List.append_eq_nil_iff.1 hf).1 blocked.ne_nil

end Lox.Grammar
