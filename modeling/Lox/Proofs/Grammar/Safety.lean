import Lox.Proofs.Grammar.Spending

/-!
# Reading comes to an end

Twenty steps a token, and a few more by how far a rule is from the next token it takes, are enough:
no rule uses up its steps, more of them change nothing, and what stands behind the end token is not
looked at. A rule breaks off for two reasons only, that it runs out of tokens or that a literal
carries no value. So a list of tokens that ends with its only end token, and whose literals carry
their values, is read without a fault.
-/

namespace Lox

structure Token.Valued (t : Token) : Prop where
  number : t.kind = .number → ∃ x, t.literal = some (.number x)
  string : t.kind = .string → ∃ text, t.literal = some (.string text)

theorem Token.Valued.constant {t : Token} (h : t.Valued) (hl : Grammar.isLiteral t.kind) :
    (Constant.ofToken? t).isSome := by
  unfold Constant.ofToken?
  cases hk : t.kind with
  | number =>
    obtain ⟨x, hx⟩ := h.number hk
    rw [hx]
    rfl
  | string =>
    obtain ⟨text, ht⟩ := h.string hk
    rw [ht]
    rfl
  | kwTrue | kwFalse | kwNil => rfl
  | _ =>
    rw [hk] at hl
    cases hl

namespace Grammar

variable {α β : Type}

/-- Tokens up to the one that ends them; a literal carries a value of its kind. -/
inductive WellEnded : List Token → Prop
  | atEnd {t : Token} : t.kind = .eof → WellEnded [t]
  | cons {t : Token} {rest : List Token} :
    t.kind ≠ .eof → (isLiteral t.kind → (Constant.ofToken? t).isSome) → WellEnded rest →
    WellEnded (t :: rest)

def Ended (tokens : List Token) : Prop :=
  ∃ t ∈ tokens, t.kind = .eof

/-- The tokens have the fault. That the steps are used up is the fault of no tokens. -/
inductive Faulty (tokens : List Token) : Fault → Prop
  | missingEnd : ¬ Ended tokens → Faulty tokens .missingEnd
  | notLiteral {t : Token} : t ∈ tokens → isLiteral t.kind → Constant.ofToken? t = none →
    Faulty tokens (.notLiteral t)

theorem Passes.ended {tokens rest : List Token} (h : Passes tokens rest) :
    Ended rest ↔ Ended tokens := by
  obtain ⟨taken, rfl, before⟩ := h
  constructor
  · rintro ⟨t, mem, ht⟩
    exact ⟨t, List.mem_append_right _ mem, ht⟩
  · rintro ⟨t, mem, ht⟩
    exact ⟨t, (List.mem_append.1 mem).resolve_left fun mem => before t mem ht, ht⟩

theorem Passes.faulty {tokens rest : List Token} {fault : Fault} (h : Passes tokens rest)
    (faulty : Faulty rest fault) : Faulty tokens fault := by
  cases faulty with
  | missingEnd none => exact .missingEnd (mt h.ended.2 none)
  | notLiteral mem literal value => exact .notLiteral (h.suffix.mem mem) literal value

theorem not_faulty_of_wellEnded {tokens : List Token} (h : WellEnded tokens) (fault : Fault) :
    ¬ Faulty tokens fault := by
  induction h with
  | @atEnd t ht =>
    rintro (none | ⟨mem, literal, -⟩)
    · exact none ⟨t, List.mem_singleton_self t, ht⟩
    · obtain rfl := List.mem_singleton.1 mem
      exact ne_eof_of_isLiteral literal ht
  | @cons t rest ht carries _ ih =>
    rintro (none | ⟨mem, literal, value⟩)
    · exact ih (.missingEnd (mt (Passes.cons ht (.refl rest)).ended.1 none))
    · rcases List.mem_cons.1 mem with rfl | mem
      · have carried := carries literal
        rw [value] at carried
        cases carried
      · exact ih (.notLiteral mem literal value)

/-- What stands behind the tokens is out of reach, if anything does. -/
def Sealed (tokens more : List Token) : Prop :=
  more = [] ∨ Ended tokens

theorem Sealed.passes {tokens rest more : List Token} (h : Sealed tokens more)
    (passes : Passes tokens rest) : Sealed rest more :=
  h.imp_right passes.ended.2

theorem beforeEnd_passed {taken : List Token} (before : ∀ t ∈ taken, t.kind ≠ .eof)
    (rest : List Token) : beforeEnd (taken ++ rest) = taken.length + beforeEnd rest := by
  unfold beforeEnd
  rw [List.takeWhile_append_of_pos (by simpa using before), List.length_append]

theorem beforeEnd_of_eof {t : Token} (ht : t.kind = .eof) (rest : List Token) :
    beforeEnd (t :: rest) = 0 := by
  simp [beforeEnd, ht]

theorem Ended.passes {tokens : List Token} (h : Ended tokens) :
    ∃ t rest, t.kind = .eof ∧ Passes tokens (t :: rest) := by
  induction tokens with
  | nil => simp [Ended] at h
  | cons t tokens ih =>
    by_cases ht : t.kind = .eof
    · exact ⟨t, tokens, ht, .refl _⟩
    · obtain ⟨u, rest, hu, passes⟩ := ih ((Passes.cons ht (.refl tokens)).ended.2 h)
      exact ⟨u, rest, hu, passes.cons ht⟩

theorem beforeEnd_append {tokens more : List Token} (h : Sealed tokens more) :
    beforeEnd (tokens ++ more) = beforeEnd tokens := by
  rcases h with rfl | ended
  · rw [List.append_nil]
  · obtain ⟨t, rest, ht, taken, rfl, before⟩ := ended.passes
    rw [List.append_assoc, List.cons_append, beforeEnd_passed before, beforeEnd_passed before,
      beforeEnd_of_eof ht, beforeEnd_of_eof ht]

/-- The replies to tokens and to the same ones with others behind them. -/
inductive Reply.Agree (tokens more : List Token) : Reply α → Reply α → Prop
  | read {value : α} {rest : List Token} {findings : List Finding} : Passes tokens rest →
    Agree tokens more (.read value rest findings) (.read value (rest ++ more) findings)
  | stuck {rest : List Token} {findings : List Finding} : Passes tokens rest →
    Agree tokens more (.stuck rest findings) (.stuck (rest ++ more) findings)
  | broken {fault : Fault} : Faulty tokens fault → Agree tokens more (.broken fault) (.broken fault)

theorem Reply.Agree.eq {tokens : List Token} {r r' : Reply α} (h : r.Agree tokens [] r') :
    r' = r := by
  cases h with
  | read | stuck => rw [List.append_nil]
  | broken => rfl

theorem Reply.Agree.after {tokens middle more : List Token} {r r' : Reply α}
    (passes : Passes tokens middle) (h : r.Agree middle more r') (earlier : List Finding) :
    (r.after earlier).Agree tokens more (r'.after earlier) := by
  cases h with
  | read left => exact .read (passes.trans left)
  | stuck left => exact .stuck (passes.trans left)
  | broken faulty => exact .broken (passes.faulty faulty)

namespace Rule

/-- The second rule replies to at most `limit` tokens as the first one does, whatever stands behind
them, and neither breaks off but for a fault of the tokens. -/
def Steady (limit : Nat) (x y : Rule α) : Prop :=
  ∀ tokens more, Sealed tokens more → tokens.length ≤ limit →
    (x tokens).Agree tokens more (y (tokens ++ more))

def SteadyAt (limit : Nat) (first : Token) (x y : Rule α) : Prop :=
  ∀ rest more, Sealed (first :: rest) more → rest.length < limit →
    (x (first :: rest)).Agree (first :: rest) more (y (first :: (rest ++ more)))

variable {limit : Nat} {x y : Rule α} {f g : α → Rule β}

theorem Steady.at (h : Steady limit x y) (t : Token) : SteadyAt limit t x y :=
  fun rest more sealed hl => h (t :: rest) more sealed hl

theorem Steady.of_first (none : x [] = .broken .missingEnd) (none' : y [] = .broken .missingEnd)
    (h : ∀ t, SteadyAt limit t x y) : Steady limit x y := by
  intro tokens more sealed hl
  cases tokens with
  | nil =>
    obtain rfl : more = [] := sealed.resolve_right (by simp [Ended])
    rw [List.append_nil, none, none']
    exact .broken (.missingEnd (by simp [Ended]))
  | cons t rest => exact h t rest more sealed hl

theorem Steady.pure (value : α) : Steady limit (Pure.pure value) (Pure.pure value) :=
  fun tokens _ _ _ => .read (.refl tokens)

theorem Steady.note (f : Finding) : Steady limit (note f) (note f) :=
  fun tokens _ _ _ => .read (.refl tokens)

theorem Steady.bind (hx : Steady limit x y) (hf : ∀ a, Steady limit (f a) (g a)) :
    Steady limit (x >>= f) (y >>= g) := by
  intro tokens more sealed hl
  have first := hx tokens more sealed hl
  rw [bind_apply, bind_apply]
  generalize x tokens = r, y (tokens ++ more) = r' at first ⊢
  cases first with
  | @read a rest noted left =>
    exact .after left (hf a rest more (sealed.passes left) (Nat.le_trans left.length_le hl)) noted
  | stuck left => exact .stuck left
  | broken faulty => exact .broken faulty

theorem Steady.bindSpending (hx : Steady limit x y) (hs : x.Spends 1)
    (hf : ∀ a, 0 < limit → Steady (limit - 1) (f a) (g a)) : Steady limit (x >>= f) (y >>= g) := by
  intro tokens more sealed hl
  have first := hx tokens more sealed hl
  have spent := hs tokens
  rw [bind_apply, bind_apply]
  generalize x tokens = r, y (tokens ++ more) = r' at first spent ⊢
  cases first with
  | @read a rest noted left =>
    have shorter : rest.length < limit := Nat.lt_of_lt_of_le spent.least hl
    have second := hf a (Nat.zero_lt_of_lt shorter) rest more (sealed.passes left)
      (Nat.le_sub_one_of_lt shorter)
    exact .after left second noted
  | stuck left => exact .stuck left
  | broken faulty => exact .broken faulty

theorem SteadyAt.finding {f g : Finding → Rule α} {cause : GrammarCause} {t : Token}
    (hf : ∀ a, SteadyAt limit t (f a) (g a)) :
    SteadyAt limit t (finding cause >>= f) (finding cause >>= g) := by
  intro rest more sealed hl
  have same := beforeEnd_append sealed
  rw [List.cons_append] at same
  rw [bind_apply, bind_apply, Rule.finding, Rule.finding, same]
  simpa using hf _ rest more sealed hl

theorem Steady.check (kind : Kind) : Steady limit (check kind) (check kind) :=
  .of_first rfl rfl fun t rest _ _ _ => .read (.refl (t :: rest))

theorem Steady.stuck (cause : GrammarCause) :
    Steady limit (stuck cause : Rule α) (stuck cause : Rule α) :=
  .of_first rfl rfl fun _ => .finding fun _ _ _ _ _ => .stuck (.refl _)

theorem Steady.noteHereIf (wrong : Bool) (cause : GrammarCause) :
    Steady limit (noteHereIf wrong cause) (noteHereIf wrong cause) := by
  unfold Rule.noteHereIf
  split
  · exact .of_first rfl rfl fun t => .finding fun f => (Steady.note f).at t
  · exact .pure ()

theorem Steady.unlessAt (kind : Kind) (absent : α) (hx : Steady limit x y) :
    Steady limit (unlessAt kind absent x) (unlessAt kind absent y) := by
  refine .bind (.check kind) fun found => ?_
  split
  · exact .pure absent
  · exact hx

/-! Where a token is known not to be the last one, taking it leaves fewer. -/

theorem SteadyAt.advance {f g : Token → Rule α} {t : Token} (ht : t.kind ≠ .eof)
    (hf : 0 < limit → Steady (limit - 1) (f t) (g t)) :
    SteadyAt limit t (advance >>= f) (advance >>= g) := by
  intro rest more sealed hl
  have left : Passes (t :: rest) rest := .cons ht (.refl rest)
  have second := hf (Nat.zero_lt_of_lt hl) rest more (sealed.passes left) (Nat.le_sub_one_of_lt hl)
  rw [advance_bind, advance_bind, if_neg ht, if_neg ht]
  simpa using second.after left []

theorem Steady.peek {f g : Token → Rule α} (hf : ∀ t, SteadyAt limit t (f t) (g t)) :
    Steady limit (peek >>= f) (peek >>= g) := by
  refine .of_first rfl rfl fun t rest more sealed hl => ?_
  rw [peek_bind, peek_bind]
  exact hf t rest more sealed hl

theorem Steady.whenAt {kind : Kind} (hk : kind ≠ .eof) {x' y' : Rule α}
    (hx : ∀ t, t.kind ≠ .eof → SteadyAt limit t x y) (hx' : Steady limit x' y') :
    Steady limit (Rule.check kind >>= fun found => if found = true then x else x')
      (Rule.check kind >>= fun found => if found = true then y else y') := by
  refine .of_first rfl rfl fun t rest more sealed hl => ?_
  rw [check_bind, check_bind]
  by_cases ht : t.kind = kind
  · rw [if_pos (decide_eq_true ht), if_pos (decide_eq_true ht)]
    exact hx t (ht ▸ hk) rest more sealed hl
  · rw [if_neg (by simpa using ht), if_neg (by simpa using ht)]
    exact hx'.at t rest more sealed hl

theorem Steady.expect {kind : Kind} (hk : kind ≠ .eof) (what : String) {f g : Token → Rule α}
    (hf : ∀ t, 0 < limit → Steady (limit - 1) (f t) (g t)) :
    Steady limit (expect kind what >>= f) (expect kind what >>= g) := by
  refine .of_first rfl rfl fun t rest more sealed hl => ?_
  rw [expect_bind, expect_bind]
  by_cases ht : t.kind = kind
  · rw [if_pos ht, if_pos ht]
    exact SteadyAt.advance (ht ▸ hk) (hf t) rest more sealed hl
  · rw [if_neg ht, if_neg ht]
    exact (Steady.stuck (.expected what)).at t rest more sealed hl

theorem Steady.following {kind : Kind} (hk : kind ≠ .eof)
    (hx : 0 < limit → Steady (limit - 1) x y) :
    Steady limit (following kind x) (following kind y) :=
  .whenAt hk (fun _ ht => .advance ht fun h => .bind (hx h) fun _ => .pure _) (.pure _)

end Rule

open Rule (Steady SteadyAt)

-- ---------------------------------------------------------------------------
-- Expressions
-- ---------------------------------------------------------------------------
mutual

theorem steady_expression : ∀ {n n' limit : Nat}, 20 * limit + 10 ≤ n → n ≤ n' →
    Steady limit (expression n) (expression n')
  | 0, _, _, h, _ => by omega
  | _ + 1, 0, _, _, hn => by omega
  | n + 1, n' + 1, limit, h, hn => by
    refine .bind (steady_operation (by decide) (by simp [Level.all]; omega) (by omega))
      fun left => ?_
    refine .whenAt (by decide) (fun t ht => ?_) (.pure _)
    refine .finding fun wrong => .advance ht fun _ => ?_
    refine .bind (steady_expression (by omega) (by omega)) fun value => ?_
    split
    · exact .pure _
    · exact .bind (.note _) fun _ => .pure _

theorem steady_operation : ∀ {n n' limit : Nat} {levels : List Level}, levels.length ≤ 6 →
    20 * limit + levels.length + 3 ≤ n → n ≤ n' →
    Steady limit (operation n levels) (operation n' levels)
  | 0, _, _, _, _, h, _ => by omega
  | _ + 1, 0, _, _, _, _, hn => by omega
  | n + 1, n' + 1, _, [], _, h, hn => steady_unary (by simp at h; omega) (by omega)
  | n + 1, n' + 1, _, level :: tighter, hs, h, hn => by
    rw [List.length_cons] at hs h
    refine .bind (steady_operation (by omega) (by omega) (by omega)) fun left => ?_
    exact steady_operationRest (by omega) (by omega) (by omega)

theorem steady_operationRest : ∀ {n n' limit : Nat} {level : Level} {tighter : List Level}
    {left : Expr}, tighter.length ≤ 6 → 20 * limit + 1 ≤ n → n ≤ n' →
    Steady limit (operationRest n level tighter left) (operationRest n' level tighter left)
  | 0, _, _, _, _, _, _, h, _ => by omega
  | _ + 1, 0, _, _, _, _, _, _, hn => by omega
  | n + 1, n' + 1, limit, level, tighter, left, hs, h, hn => by
    refine .peek fun t => ?_
    split
    · next ht =>
      refine .advance (ne_eof_of_operates ht) fun _ => ?_
      refine .bind (steady_operation hs (by omega) (by omega)) fun right => ?_
      exact steady_operationRest hs (by omega) (by omega)
    · exact (Steady.pure left).at t

theorem steady_unary : ∀ {n n' limit : Nat}, 20 * limit + 2 ≤ n → n ≤ n' →
    Steady limit (unary n) (unary n')
  | 0, _, _, h, _ => by omega
  | _ + 1, 0, _, _, hn => by omega
  | n + 1, n' + 1, limit, h, hn => by
    refine .peek fun t => ?_
    split
    · next ht =>
      refine .advance (ne_eof_of_isUnary ht) fun _ => ?_
      exact .bind (steady_unary (by omega) (by omega)) fun _ => .pure _
    · have called : Steady limit (primary n >>= callRest n) (primary n' >>= callRest n') :=
        .bind (steady_primary (by omega) (by omega)) fun _ => steady_callRest (by omega) (by omega)
      exact called.at t

theorem steady_callRest : ∀ {n n' limit : Nat} {callee : Expr}, 20 * limit + 1 ≤ n → n ≤ n' →
    Steady limit (callRest n callee) (callRest n' callee)
  | 0, _, _, _, h, _ => by omega
  | _ + 1, 0, _, _, _, hn => by omega
  | n + 1, n' + 1, limit, callee, h, hn => by
    refine .whenAt (by decide) (fun t ht => .advance ht fun _ => ?_) (.pure _)
    refine .bind (.unlessAt _ _ (steady_arguments (by omega) (by omega))) fun given => ?_
    exact .expect (by decide) _ fun paren _ => steady_callRest (by omega) (by omega)

theorem steady_arguments : ∀ {n n' limit count : Nat}, 20 * limit + 11 ≤ n → n ≤ n' →
    Steady limit (arguments n count) (arguments n' count)
  | 0, _, _, _, h, _ => by omega
  | _ + 1, 0, _, _, _, hn => by omega
  | n + 1, n' + 1, limit, count, h, hn => by
    refine .bind (.noteHereIf _ _) fun _ => ?_
    refine .bind (steady_expression (by omega) (by omega)) fun first => ?_
    refine .whenAt (by decide) (fun t ht => .advance ht fun _ => ?_) (.pure _)
    exact .bind (steady_arguments (by omega) (by omega)) fun _ => .pure _

theorem steady_primary : ∀ {n n' limit : Nat}, 20 * limit + 1 ≤ n → n ≤ n' →
    Steady limit (primary n) (primary n')
  | 0, _, _, h, _ => by omega
  | _ + 1, 0, _, _, hn => by omega
  | n + 1, n' + 1, limit, h, hn => by
    refine .peek fun t => ?_
    split
    · next ht =>
      have notLast : t.kind ≠ .eof := ne_eof_of_isLiteral ht
      cases hv : Constant.ofToken? t with
      | some value => exact .advance notLast fun _ => by simpa [hv] using Steady.pure _
      | none =>
        intro rest more _ _
        rw [Rule.advance_bind, Rule.advance_bind, if_neg notLast, if_neg notLast, hv]
        exact .broken (.notLiteral (List.mem_cons_self ..) ht hv)
    split
    · next ht => exact .advance (by simp [ht]) fun _ => .pure _
    split
    · next ht =>
      refine .advance (by simp [ht]) fun _ => ?_
      refine .bind (steady_expression (by omega) (by omega)) fun inner => ?_
      exact .expect (by decide) _ fun _ _ => .pure _
    · exact (Steady.stuck _).at t

end

-- ---------------------------------------------------------------------------
-- Statements
-- ---------------------------------------------------------------------------

theorem steady_parameters : ∀ {n n' limit count : Nat}, 20 * limit + 1 ≤ n → n ≤ n' →
    Steady limit (parameters n count) (parameters n' count)
  | 0, _, _, _, h, _ => by omega
  | _ + 1, 0, _, _, _, hn => by omega
  | n + 1, n' + 1, limit, count, h, hn => by
    refine .bind (.noteHereIf _ _) fun _ => .expect (by decide) _ fun first _ => ?_
    refine .whenAt (by decide) (fun t ht => .advance ht fun _ => ?_) (.pure _)
    exact .bind (steady_parameters (by omega) (by omega)) fun _ => .pure _

section
variable {n n' limit : Nat} (h : 20 * limit + 10 ≤ n) (hn : n ≤ n')
include h hn

theorem steady_optionalBefore (kind : Kind) :
    Steady limit (optionalBefore kind n) (optionalBefore kind n') :=
  .unlessAt _ _ (.bind (steady_expression h hn) fun _ => .pure _)

theorem steady_variableRest : Steady limit (variableRest n) (variableRest n') := by
  refine .expect (by decide) _ fun name _ => ?_
  refine .bind (.following (by decide) fun _ => steady_expression (by omega) hn)
    fun initializer => ?_
  exact .expect (by decide) _ fun _ _ => .pure _

theorem steady_expressionStatement :
    Steady limit (expressionStatement n) (expressionStatement n') :=
  .bind (steady_expression h hn) fun _ => .expect (by decide) _ fun _ _ => .pure _

theorem steady_firstClause : Steady limit (firstClause n) (firstClause n') := by
  refine .peek fun t => ?_
  split
  · next ht => exact .advance (by simp [ht]) fun _ => .pure _
  split
  · next ht =>
    refine .advance (by simp [ht]) fun _ => ?_
    exact .bind (steady_variableRest (by omega) hn) fun _ => .pure _
  · have wrapped :
        Steady limit (some <$> expressionStatement n) (some <$> expressionStatement n') :=
      .bind (steady_expressionStatement h hn) fun _ => .pure _
    exact wrapped.at t

end

mutual

theorem steady_declaration : ∀ {n n' limit : Nat}, 20 * limit + 12 ≤ n → n ≤ n' →
    Steady limit (declaration n) (declaration n')
  | 0, _, _, h, _ => by omega
  | _ + 1, 0, _, _, hn => by omega
  | n + 1, n' + 1, limit, h, hn => by
    refine .peek fun t => ?_
    split
    · next ht => exact .advance (by simp [ht]) fun _ => steady_functionRest (by omega) (by omega)
    split
    · next ht => exact .advance (by simp [ht]) fun _ => steady_variableRest (by omega) (by omega)
    · exact (steady_statement (by omega) (by omega)).at t

theorem steady_functionRest : ∀ {n n' limit : Nat}, 20 * limit + 1 ≤ n → n ≤ n' →
    Steady limit (functionRest n) (functionRest n')
  | 0, _, _, h, _ => by omega
  | _ + 1, 0, _, _, hn => by omega
  | n + 1, n' + 1, limit, h, hn => by
    refine .expect (by decide) _ fun name _ => .expect (by decide) _ fun _ _ => ?_
    refine .bind (.unlessAt _ _ (steady_parameters (by omega) (by omega))) fun names => ?_
    refine .expect (by decide) _ fun _ _ => .expect (by decide) _ fun _ _ => ?_
    exact .bind (steady_blockRest (by omega) (by omega)) fun _ => .pure _

theorem steady_statement : ∀ {n n' limit : Nat}, 20 * limit + 11 ≤ n → n ≤ n' →
    Steady limit (statement n) (statement n')
  | 0, _, _, h, _ => by omega
  | _ + 1, 0, _, _, hn => by omega
  | n + 1, n' + 1, limit, h, hn => by
    refine .peek fun t => ?_
    cases ht : t.kind with
    | kwFor => exact .advance (by simp [ht]) fun _ => steady_forRest (by omega) (by omega)
    | kwIf => exact .advance (by simp [ht]) fun _ => steady_ifRest (by omega) (by omega)
    | kwPrint =>
      refine .advance (by simp [ht]) fun _ => .bind (steady_expression (by omega) (by omega))
        fun _ => ?_
      exact .expect (by decide) _ fun _ _ => .pure _
    | kwReturn =>
      refine .advance (by simp [ht]) fun _ => ?_
      refine .bind (steady_optionalBefore (by omega) (by omega) _) fun value => ?_
      exact .expect (by decide) _ fun _ _ => .pure _
    | kwWhile =>
      refine .advance (by simp [ht]) fun _ => .expect (by decide) _ fun _ _ => ?_
      refine .bind (steady_expression (by omega) (by omega)) fun condition => ?_
      refine .expect (by decide) _ fun _ _ => ?_
      exact .bind (steady_statement (by omega) (by omega)) fun _ => .pure _
    | leftBrace =>
      refine .advance (by simp [ht]) fun _ => ?_
      exact .bind (steady_blockRest (by omega) (by omega)) fun _ => .pure _
    | _ => exact (steady_expressionStatement (by omega) (by omega)).at t

theorem steady_forRest : ∀ {n n' limit : Nat}, 20 * limit + 1 ≤ n → n ≤ n' →
    Steady limit (forRest n) (forRest n')
  | 0, _, _, h, _ => by omega
  | _ + 1, 0, _, _, hn => by omega
  | n + 1, n' + 1, limit, h, hn => by
    refine .expect (by decide) _ fun _ _ => ?_
    refine .bind (steady_firstClause (by omega) (by omega)) fun initializer => ?_
    refine .bind (steady_optionalBefore (by omega) (by omega) _) fun condition => ?_
    refine .expect (by decide) _ fun _ _ => ?_
    refine .bind (steady_optionalBefore (by omega) (by omega) _) fun increment => ?_
    refine .expect (by decide) _ fun _ _ => ?_
    exact .bind (steady_statement (by omega) (by omega)) fun _ => .pure _

theorem steady_ifRest : ∀ {n n' limit : Nat}, 20 * limit + 1 ≤ n → n ≤ n' →
    Steady limit (ifRest n) (ifRest n')
  | 0, _, _, h, _ => by omega
  | _ + 1, 0, _, _, hn => by omega
  | n + 1, n' + 1, limit, h, hn => by
    refine .expect (by decide) _ fun _ _ => ?_
    refine .bind (steady_expression (by omega) (by omega)) fun condition => ?_
    refine .expect (by decide) _ fun _ _ => ?_
    refine .bind (steady_statement (by omega) (by omega)) fun consequent => ?_
    have alternative : Steady (limit - 1 - 1) (Rule.following .kwElse (statement n))
        (Rule.following .kwElse (statement n')) :=
      .following (by decide) fun _ => steady_statement (by omega) (by omega)
    exact .bind alternative fun _ => .pure _

theorem steady_blockRest : ∀ {n n' limit : Nat}, 20 * limit + 13 ≤ n → n ≤ n' →
    Steady limit (blockRest n) (blockRest n')
  | 0, _, _, h, _ => by omega
  | _ + 1, 0, _, _, hn => by omega
  | n + 1, n' + 1, limit, h, hn => by
    refine .peek fun t => ?_
    split
    · exact (Steady.expect (by decide) _ fun _ _ => .pure _).at t
    · have declared : Steady limit (declaration n >>= fun first => return first :: (← blockRest n))
          (declaration n' >>= fun first => return first :: (← blockRest n')) :=
        .bindSpending (steady_declaration (by omega) (by omega)) (spends_declaration n)
          fun first _ =>
          .bind (steady_blockRest (by omega) (by omega)) fun _ => .pure _
      exact declared.at t

end

-- ---------------------------------------------------------------------------
-- Programs
-- ---------------------------------------------------------------------------

theorem skip_append {tokens more : List Token} (sealed : Sealed tokens more) (previous : Kind) :
    skip previous (tokens ++ more) = (skip previous tokens).map (· ++ more) := by
  induction tokens generalizing previous with
  | nil =>
    obtain rfl : more = [] := sealed.resolve_right (by simp [Ended])
    rfl
  | cons t tokens ih =>
    rw [List.cons_append, skip, skip]
    split
    · rfl
    · next goesOn =>
      have notLast : t.kind ≠ .eof := by simp_all
      exact ih (sealed.passes (.cons notLast (.refl tokens))) t.kind

theorem faulty_of_skip {previous : Kind} {tokens : List Token} {fault : Fault}
    (h : skip previous tokens = .error fault) : Faulty tokens fault := by
  induction tokens generalizing previous with
  | nil =>
    cases h
    exact .missingEnd (by simp [Ended])
  | cons t tokens ih =>
    rw [skip] at h
    split at h
    · cases h
    · next goesOn =>
      have notLast : t.kind ≠ .eof := by simp_all
      exact (Passes.cons notLast (.refl tokens)).faulty (ih h)

theorem synchronize_append {t : Token} {tokens more : List Token}
    (sealed : Sealed (t :: tokens) more) :
    synchronize (t :: (tokens ++ more)) = (synchronize (t :: tokens)).map (· ++ more) := by
  rw [synchronize, synchronize]
  split
  · rfl
  · next notLast => exact skip_append (sealed.passes (.cons notLast (.refl tokens))) t.kind

theorem faulty_of_synchronize {t : Token} {tokens : List Token} {fault : Fault}
    (h : synchronize (t :: tokens) = .error fault) : Faulty (t :: tokens) fault := by
  rw [synchronize] at h
  split at h
  · cases h
  · next notLast => exact (Passes.cons notLast (.refl tokens)).faulty (faulty_of_skip h)

theorem synchronize_shorter {t : Token} {tokens stop after : List Token} {findings : List Finding}
    (ht : t.kind ≠ .eof) (blocked : Blocked (t :: tokens) stop findings)
    (h : synchronize stop = .ok after) :
    Passes (t :: tokens) after ∧ after.length < (t :: tokens).length := by
  obtain ⟨taken, split, before⟩ := blocked.passes
  obtain ⟨u, more, rfl⟩ := List.exists_cons_of_ne_nil blocked.rest_ne_nil
  obtain ⟨hu, rfl⟩ | ⟨hu, passes⟩ := synchronize_passes h
  · refine ⟨blocked.passes, ?_⟩
    -- The end token is not the first one, so something stands before it.
    cases taken with
    | nil =>
      cases split
      exact absurd hu ht
    | cons v taken =>
      simp only [split, List.cons_append, List.length_cons, List.length_append]
      omega
  · refine ⟨blocked.passes.trans (.cons hu passes), ?_⟩
    exact Nat.lt_of_lt_of_le (Nat.lt_succ_of_le passes.length_le) blocked.passes.length_le

/-- With twenty steps a token and a few more the answer is the tokens' own: it comes from those up
to the end token, and a fault is a fault of theirs. -/
theorem program_steady {n n' : Nat} {tokens more : List Token} (sealed : Sealed tokens more)
    (h : 20 * tokens.length + 13 ≤ n) (hn : n ≤ n') :
    program n' (tokens ++ more) = program n tokens ∧
      ∀ fault, program n tokens = .error fault → Faulty tokens fault := by
  induction n generalizing n' tokens with
  | zero => omega
  | succ n ih =>
    obtain ⟨n', rfl⟩ : ∃ k, n' = k + 1 := Nat.exists_eq_succ_of_ne_zero (by omega)
    cases tokens with
    | nil =>
      obtain rfl : more = [] := sealed.resolve_right (by simp [Ended])
      refine ⟨rfl, ?_⟩
      rintro _ ⟨⟩
      exact .missingEnd (by simp [Ended])
    | cons t rest =>
      rw [List.cons_append, program, program]
      by_cases ht : t.kind = .eof
      · simp [ht]
      rw [if_neg ht, if_neg ht]
      have steady : Steady (t :: rest).length (declaration n) (declaration n') :=
        steady_declaration (by omega) (by omega)
      have agree := steady (t :: rest) more sealed (Nat.le_refl _)
      have accounts := spends_declaration n (t :: rest)
      rw [List.cons_append] at agree
      generalize declaration n (t :: rest) = r, declaration n' (t :: (rest ++ more)) = r'
        at agree accounts ⊢
      cases agree with
      | @read statement after findings left =>
        have shorter := accounts.least
        obtain ⟨same, faulty⟩ := ih (sealed.passes left) (by omega) (Nat.le_of_succ_le_succ hn)
        dsimp only
        rw [same]
        exact ⟨rfl, fun fault failed => left.faulty (faulty fault (program_map_eq_error failed))⟩
      | @stuck stop findings left =>
        dsimp only
        obtain ⟨u, stop, rfl⟩ := List.exists_cons_of_ne_nil accounts.rest_ne_nil
        rw [List.cons_append, synchronize_append (sealed.passes left)]
        cases hs : synchronize (u :: stop) with
        | error fault =>
          refine ⟨rfl, ?_⟩
          rintro _ ⟨⟩
          exact left.faulty (faulty_of_synchronize hs)
        | ok after =>
          obtain ⟨passes, shorter⟩ := synchronize_shorter ht accounts hs
          obtain ⟨same, faulty⟩ := ih (sealed.passes passes) (by omega) (Nat.le_of_succ_le_succ hn)
          dsimp only [Except.map]
          rw [same]
          exact ⟨rfl, fun fault failed =>
            passes.faulty (faulty fault (program_map_eq_error failed))⟩
      | broken faulty =>
        refine ⟨rfl, ?_⟩
        rintro _ ⟨⟩
        exact faulty

theorem program_eq_parse {n : Nat} {tokens : List Token} (hn : steps tokens.length ≤ n) :
    program n tokens = parse tokens := by
  have enough : 20 * tokens.length + 13 ≤ steps tokens.length := by
    unfold steps
    omega
  simpa [parse] using (program_steady (.inl rfl) enough hn).1

theorem parse_append {tokens more : List Token} (sealed : Sealed tokens more) :
    parse (tokens ++ more) = parse tokens := by
  refine (program_steady sealed (by unfold steps; omega) ?_).1
  unfold steps
  rw [List.length_append]
  omega

theorem faulty_of_parse {tokens : List Token} {fault : Fault} (h : parse tokens = .error fault) :
    Faulty tokens fault :=
  (program_steady (.inl rfl) (by unfold steps; omega) (Nat.le_refl _)).2 fault h

theorem parse_eq_ok {tokens : List Token} (hw : WellEnded tokens) :
    ∃ reading, parse tokens = .ok reading := by
  cases hp : parse tokens with
  | ok reading => exact ⟨reading, rfl⟩
  | error fault => exact absurd (faulty_of_parse hp) (not_faulty_of_wellEnded hw fault)

end Grammar

end Lox
