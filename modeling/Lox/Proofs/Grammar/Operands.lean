import Lox.Proofs.Grammar.Levels
import Lox.Proofs.Grammar.Locality

/-!
# Written expressions are read

What is written as the grammar spells an expression is read as that expression, its names not yet
bound. Rules decide by one token, so what a rule reads is said together with the kinds of token that
may stand behind it.

A loop over operators or calls builds its tree from the first operand on, but the outermost node of
the tree is the last operator. So an operand is read together with all that the loop around it reads
after it (`ReadsCall`, `ReadsJoined`).
-/

namespace Lox.Grammar

variable {α β : Type}

-- ---------------------------------------------------------------------------
-- Rules on marks
-- ---------------------------------------------------------------------------

namespace Rule

/-- All that is written by the marks is read as the value, up to a token of the kinds in `stop`. -/
def Accepts (stop : Kind → Prop) (x : Rule α) (marks : List Mark) (value : α) : Prop :=
  ∀ taken t rest, Written marks taken → stop t.kind →
    x (taken ++ t :: rest) = .read value (t :: rest) []

def Begins (P : Kind → Prop) (marks : List Mark) (stop : Kind → Prop) : Prop :=
  match marks with
  | [] => ∀ kind, stop kind → P kind
  | mark :: _ => P mark.kind

section
variable {P stop : Kind → Prop} {marks more : List Mark} {mark : Mark} {x y : Rule α}
    {a : α} {b : β}

theorem Begins.first {taken : List Token} {t : Token} (h : Begins P marks stop)
    (written : Written marks taken) (ht : stop t.kind) (rest : List Token) :
    ∃ u left, taken ++ t :: rest = u :: left ∧ P u.kind := by
  cases written with
  | nil => exact ⟨t, rest, rfl, h _ ht⟩
  | cons fits => exact ⟨_, _, rfl, fits.kind_eq ▸ h⟩

theorem Begins.intro (h : P mark.kind) : Begins P (mark :: marks) stop :=
  h

theorem begins_any (marks : List Mark) (stop : Kind → Prop) :
    Begins (fun _ => True) marks stop := by
  cases marks with
  | nil => exact fun _ _ => trivial
  | cons mark marks => trivial

theorem Accepts.pure : Accepts stop (Pure.pure a) [] a := by
  rintro _ t rest ⟨⟩ -
  rfl

theorem Accepts.mono (h : Accepts P x marks a) (hs : ∀ kind, stop kind → P kind) :
    Accepts stop x marks a :=
  fun taken t rest written ht => h taken t rest written (hs _ ht)

theorem Accepts.before {kind : Kind} (h : Accepts P x marks a) (hk : P kind) :
    Accepts (· = kind) x marks a :=
  h.mono fun _ same => same ▸ hk

theorem Accepts.bind {f : α → Rule β} (hx : Accepts P x marks a) (begins : Begins P more stop)
    (hf : Accepts stop (f a) more b) : Accepts stop (x >>= f) (marks ++ more) b := by
  intro taken t rest written ht
  obtain ⟨first, second, rfl, hw, hw'⟩ := written.split
  obtain ⟨u, left, split, hu⟩ := begins.first hw' ht rest
  rw [List.append_assoc, split, bind_of_read (hx first u left hw hu), ← split]
  exact hf second t rest hw' ht

theorem Accepts.last {f : α → Rule β} (hx : Accepts stop x marks a)
    (hf : Accepts stop (f a) [] b) : Accepts stop (x >>= f) marks b := by
  have begins : Begins stop [] stop := fun _ h => h
  simpa using hx.bind begins hf

theorem Accepts.peek {f : Token → Rule β} (begins : Begins P marks stop)
    (hf : ∀ t : Token, P t.kind → Accepts stop (f t) marks b) :
    Accepts stop (peek >>= f) marks b := by
  intro taken t rest written ht
  obtain ⟨u, left, split, hu⟩ := begins.first written ht rest
  rw [split, peek_bind, ← split]
  exact hf u hu taken t rest written ht

theorem Accepts.present {kind : Kind} (begins : Begins (· = kind) marks stop)
    (hx : Accepts stop x marks a) :
    Accepts stop (check kind >>= fun found => if found = true then x else y) marks a := by
  intro taken t rest written ht
  obtain ⟨u, left, split, hu⟩ := begins.first written ht rest
  rw [split, check_bind, if_pos (decide_eq_true hu), ← split]
  exact hx taken t rest written ht

theorem Accepts.absent {kind : Kind} (begins : Begins (· ≠ kind) marks stop)
    (hy : Accepts stop y marks a) :
    Accepts stop (check kind >>= fun found => if found = true then x else y) marks a := by
  intro taken t rest written ht
  obtain ⟨u, left, split, hu⟩ := begins.first written ht rest
  rw [split, check_bind, if_neg (by simpa using hu), ← split]
  exact hy taken t rest written ht

theorem Accepts.advance {f : Token → Rule β} (mark : Mark) (hm : mark.kind ≠ .eof)
    (hf : ∀ t, mark.Fits t → Accepts stop (f t) marks b) :
    Accepts stop (advance >>= f) (mark :: marks) b := by
  intro taken t rest written ht
  obtain ⟨u, taken, fits, behind, rfl⟩ := List.forall₂_cons_left_iff.1 written
  rw [List.cons_append, advance_bind, if_neg (fits.kind_eq ▸ hm)]
  exact hf u fits taken t rest behind ht

theorem Accepts.expect {kind : Kind} (hk : kind ≠ .eof) (what : String) {f : Token → Rule β}
    (mark : Mark) (hm : mark.kind = kind) (hf : ∀ t, mark.Fits t → Accepts stop (f t) marks b) :
    Accepts stop (expect kind what >>= f) (mark :: marks) b := by
  intro taken t rest written ht
  obtain ⟨u, taken, fits, behind, rfl⟩ := List.forall₂_cons_left_iff.1 written
  have hu : u.kind = kind := fits.kind_eq.trans hm
  rw [List.cons_append, bind_apply, expect_cons, if_pos hu, ← bind_apply, advance_bind,
    if_neg (hu ▸ hk)]
  exact hf u fits taken t rest behind ht

theorem Accepts.finding {f : Finding → Rule β} (cause : GrammarCause)
    (hf : ∀ wrong, Accepts stop (f wrong) marks b) :
    Accepts stop (finding cause >>= f) marks b := by
  intro taken t rest written ht
  obtain ⟨u, left, split, -⟩ := (begins_any marks stop).first written ht rest
  rw [split, bind_of_read rfl, ← split]
  exact hf _ taken t rest written ht

theorem Accepts.noteHereIf {wrong : Bool} {f : Unit → Rule β} (hw : wrong = false)
    (cause : GrammarCause) (hf : Accepts stop (f ()) marks b) :
    Accepts stop (noteHereIf wrong cause >>= f) marks b := by
  subst hw
  exact Accepts.pure.bind (begins_any marks stop) hf

theorem Accepts.following {kind : Kind} (hk : kind ≠ .eof) (hx : Accepts stop x marks a) :
    Accepts stop (following kind x) (.any kind :: marks) (some a) :=
  .present rfl (.advance (.any kind) hk fun _ _ => .last hx .pure)

end

end Rule

open Rule (Accepts Begins)

-- ---------------------------------------------------------------------------
-- Where expressions start and end
-- ---------------------------------------------------------------------------

/-- The kinds of token that an expression starts with. -/
def Starts (kind : Kind) : Prop :=
  isLiteral kind ∨ kind = .identifier ∨ kind = .leftParen ∨ isUnary kind

instance : DecidablePred Starts :=
  fun kind => inferInstanceAs (Decidable (isLiteral kind ∨ kind = .identifier ∨ kind = _ ∨ _))

theorem isLiteral_constant (value : Constant) : isLiteral value.kind := by
  cases value with
  | boolean b => cases b <;> rfl
  | _ => rfl

theorem expr_spelling_eq_cons : ∀ {e : Expr}, e.Shaped →
    ∃ mark more, e.spelling = mark :: more ∧ Starts mark.kind
  | .literal value, _ =>
      ⟨.constant value, [], by rw [Expr.spelling], .inl (isLiteral_constant value)⟩
  | .grouping _, _ => ⟨_, _, by rw [Expr.spelling, List.cons_append], .inr (.inr (.inl rfl))⟩
  | .unary operator _, h => by
    refine ⟨_, _, by rw [Expr.spelling], .inr (.inr (.inr ?_))⟩
    obtain ho | ho := h.1 <;> simp [Mark.kind, ho, isUnary]
  | .binary left _ _, h | .logical left _ _, h => by
    obtain ⟨mark, more, same, starts⟩ := expr_spelling_eq_cons (e := left) h.2.2.1
    exact ⟨mark, _, by rw [Expr.spelling, same, List.cons_append], starts⟩
  | .variable name _, h => ⟨.own name, [], by rw [Expr.spelling], .inr (.inl h)⟩
  | .assign name _ _, h => ⟨.own name, _, by rw [Expr.spelling], .inr (.inl h.1)⟩
  | .call callee _ _, h => by
    obtain ⟨mark, more, same, starts⟩ := expr_spelling_eq_cons (e := callee) h.2.2.1
    exact ⟨mark, _, by rw [Expr.spelling, same, List.cons_append, List.cons_append], starts⟩

theorem begins_expr {P stop : Kind → Prop} {e : Expr} (h : e.Shaped)
    (hp : ∀ kind, Starts kind → P kind) (more : List Mark) :
    Begins P (e.spelling ++ more) stop := by
  obtain ⟨mark, others, same, starts⟩ := expr_spelling_eq_cons h
  rw [same]
  exact hp _ starts

theorem begins_expr_ne {kind : Kind} {stop : Kind → Prop} {e : Expr} (h : e.Shaped)
    (hk : ¬ Starts kind) (more : List Mark) : Begins (· ≠ kind) (e.spelling ++ more) stop := by
  refine begins_expr h ?_ more
  rintro _ starts rfl
  exact hk starts

/-- The kinds of token that an operand of the levels ends at: none that calls it, and none that
joins it with another one. -/
def Past (levels : List Level) (kind : Kind) : Prop :=
  kind ≠ .leftParen ∧ ∀ level ∈ levels, level.operates kind = false

/-- The kinds of token that a whole expression ends at. -/
def Closes (kind : Kind) : Prop :=
  Past Level.all kind ∧ kind ≠ .equal

instance (levels : List Level) : DecidablePred (Past levels) :=
  fun kind => inferInstanceAs (Decidable (kind ≠ .leftParen ∧ ∀ level ∈ levels, _ = false))

instance : DecidablePred Closes :=
  fun kind => inferInstanceAs (Decidable (Past Level.all kind ∧ kind ≠ .equal))

-- ---------------------------------------------------------------------------
-- Expressions
-- ---------------------------------------------------------------------------

/-- A callee, read as an operand together with the calls after it. -/
def ReadsCall (e : Expr) : Prop :=
  ∀ (stop : Kind → Prop) (more : List Mark) (whole : Expr),
    (∀ n, 20 * more.length + 1 ≤ n → Accepts stop (callRest n e.unbound) more whole) →
    ∀ n, 20 * (e.spelling.length + more.length) + 2 ≤ n →
      Accepts stop (unary n) (e.spelling ++ more) whole

def ReadsUnary (e : Expr) : Prop :=
  ∀ n, 20 * e.spelling.length + 2 ≤ n → Accepts (Past []) (unary n) e.spelling e.unbound

/-- A left operand of a level, read together with the operators of the level after it. -/
def ReadsJoined (level : Level) (tighter : List Level) (e : Expr) : Prop :=
  ∀ (stop : Kind → Prop) (more : List Mark) (whole : Expr), Begins (Past tighter) more stop →
    (∀ n, 20 * more.length + 1 ≤ n →
      Accepts stop (operationRest n level tighter e.unbound) more whole) →
    ∀ n, 20 * (e.spelling.length + more.length) + tighter.length + 4 ≤ n →
      Accepts stop (operation n (level :: tighter)) (e.spelling ++ more) whole

def ReadsOperation (levels : List Level) (e : Expr) : Prop :=
  ∀ n, 20 * e.spelling.length + levels.length + 3 ≤ n →
    Accepts (Past levels) (operation n levels) e.spelling e.unbound

/-- An expression is read wherever its rank allows it to stand. -/
structure Readable (e : Expr) : Prop where
  call : 8 ≤ e.rank → ReadsCall e
  unary : 7 ≤ e.rank → ReadsUnary e
  joined : ∀ {level tighter}, Graded (level :: tighter) → level.rank ≤ e.rank →
    ReadsJoined level tighter e
  operation : ∀ {levels}, Graded levels → leastRank levels ≤ e.rank → ReadsOperation levels e
  expression : ∀ n, 20 * e.spelling.length + 10 ≤ n →
    Accepts Closes (expression n) e.spelling e.unbound

section
variable {e : Expr} {level : Level} {tighter levels : List Level}

theorem ReadsCall.unary (h : ReadsCall e) : ReadsUnary e := by
  intro n hn
  have ends : ∀ n, 1 ≤ n → Accepts (Past []) (callRest n e.unbound) [] e.unbound := by
    rintro (_ | n) hn
    · omega
    · exact .absent (fun _ past => past.1) .pure
  simpa using h (Past []) [] e.unbound ends n (by simpa using hn)

theorem ReadsUnary.operation (h : ReadsUnary e) : ReadsOperation [] e := by
  rintro (_ | n) hn
  · omega
  · exact h n (by simpa using hn)

theorem ReadsOperation.joined (h : ReadsOperation tighter e) : ReadsJoined level tighter e := by
  rintro stop more whole begins rest (_ | n) hn
  · omega
  · exact (h n (by omega)).bind begins (rest n (by omega))

theorem ReadsJoined.operation (h : ReadsJoined level tighter e) :
    ReadsOperation (level :: tighter) e := by
  intro n hn
  have ends : ∀ n, 1 ≤ n →
      Accepts (Past (level :: tighter)) (operationRest n level tighter e.unbound) [] e.unbound := by
    rintro (_ | n) hn
    · omega
    · refine .peek (fun _ past => past.2 level (List.mem_cons_self ..)) fun t ht => ?_
      rw [ht]
      exact .pure
  have begins : Begins (Past tighter) [] (Past (level :: tighter)) :=
    fun _ past => ⟨past.1, fun l hl => past.2 l (List.mem_cons_of_mem _ hl)⟩
  rw [List.length_cons] at hn
  simpa using h _ [] e.unbound begins ends n (by simp only [List.length_nil]; omega)

/-- From the loosest level to the one of the expression itself there is nothing to join, and there
the expression is read in its own way. -/
theorem readsOperation_of_own (unary : 7 ≤ e.rank → ReadsUnary e)
    (own : ∀ {level tighter}, Graded (level :: tighter) → level.rank = e.rank →
      ReadsJoined level tighter e) :
    ∀ {levels}, Graded levels → leastRank levels ≤ e.rank → ReadsOperation levels e
  | [], _, h => (unary h).operation
  | level :: tighter, graded, h => by
    obtain same | looser := Nat.eq_or_lt_of_le h
    · exact (own graded same).operation
    · have tight : leastRank tighter ≤ e.rank := graded.1 ▸ looser
      exact (readsOperation_of_own unary own graded.2 tight).joined.operation

theorem readable_of_own (joinable : 0 < e.rank) (call : 8 ≤ e.rank → ReadsCall e)
    (unary : 7 ≤ e.rank → ReadsUnary e)
    (own : ∀ {level tighter}, Graded (level :: tighter) → level.rank = e.rank →
      ReadsJoined level tighter e) : Readable e where
  call := call
  unary := unary
  operation := readsOperation_of_own unary own
  joined := by
    intro level tighter graded h
    obtain same | looser := Nat.eq_or_lt_of_le h
    · exact own graded same
    · exact (readsOperation_of_own unary own graded.2 (graded.1 ▸ looser)).joined
  expression := by
    rintro (_ | n) hn
    · omega
    · have read := readsOperation_of_own unary own graded_all joinable n
        (by simpa [Level.all] using hn)
      refine .last (read.mono fun _ closes => closes.1) ?_
      exact .absent (fun _ closes => closes.2) .pure

theorem ReadsCall.readable (h : ReadsCall e) (rank : 8 ≤ e.rank) : Readable e := by
  refine readable_of_own (by omega) (fun _ => h) (fun _ => h.unary) fun {level _} _ same => ?_
  have := level.rank_le
  omega

theorem readsCall_of_primary
    (plain : ∀ more stop, Begins (isUnary · = false) (e.spelling ++ more) stop)
    (h : ∀ n, 20 * e.spelling.length + 1 ≤ n →
      Accepts (fun _ => True) (primary n) e.spelling e.unbound) : ReadsCall e := by
  rintro stop more whole rest (_ | n) hn
  · omega
  · refine .peek (plain more stop) fun t ht => ?_
    rw [ht]
    exact (h n (by omega)).bind (Rule.begins_any more stop) (rest n (by omega))

theorem readsCall_literal (value : Constant) : ReadsCall (.literal value) := by
  have literal := isLiteral_constant value
  refine readsCall_of_primary (fun more stop => ?_) ?_
  · cases value with
    | boolean b => cases b <;> rfl
    | _ => rfl
  · rintro (_ | n) hn
    · omega
    · refine .peek (P := (· = value.kind)) rfl fun t ht => ?_
      rw [if_pos (ht ▸ literal)]
      refine .advance (.constant value) (ne_eof_of_isLiteral literal) fun t fits => ?_
      rw [Constant.ofToken?_eq_some.2 fits]
      exact .pure

theorem readsCall_variable {name : Token} (hn : name.kind = .identifier) (depth : Option Nat) :
    ReadsCall (.variable name depth) := by
  refine readsCall_of_primary (fun more stop => ?_) ?_
  · exact congrArg isUnary hn
  · rintro (_ | n) steps
    · omega
    · refine .peek (P := (· = .identifier)) hn fun t ht => ?_
      rw [ht]
      refine .advance (.own name) (by simp [Mark.kind, hn]) ?_
      rintro _ rfl
      exact .pure

theorem readsCall_grouping {inner : Expr} (h : Readable inner) : ReadsCall (.grouping inner) := by
  refine readsCall_of_primary (fun more stop => ?_) ?_
  · exact congrArg isUnary rfl
  · rintro (_ | n) hn
    · omega
    · rw [Expr.spelling, List.cons_append] at hn ⊢
      rw [List.length_cons, List.length_append] at hn
      refine .peek (P := (· = .leftParen)) rfl fun t ht => ?_
      rw [ht]
      refine .advance (.any .leftParen) (by decide) fun _ _ => ?_
      refine (h.expression n (by omega)).bind (.intro (by decide)) ?_
      exact .expect (by decide) _ (.any .rightParen) rfl fun _ _ => .pure

theorem ReadsCall.call {callee : Expr} {paren : Token} {given : List Expr} (h : ReadsCall callee)
    (hp : paren.kind = .rightParen)
    (hg : ∀ n, 20 * (Expr.listSpelling given).length + 11 ≤ n →
      Accepts (· = .rightParen) (Rule.unlessAt .rightParen [] (arguments n 0))
      (Expr.listSpelling given)
        (Expr.listUnbound given)) :
    ReadsCall (.call callee paren given) := by
  intro stop more whole rest n hn
  have marks : (Expr.call callee paren given).spelling ++ more =
      callee.spelling ++ .any .leftParen :: (Expr.listSpelling given ++ .own paren :: more) := by
    simp [Expr.spelling]
  have length : (Expr.call callee paren given).spelling.length =
      callee.spelling.length + (Expr.listSpelling given).length + 2 := by
    simp [Expr.spelling]
    omega
  rw [marks]
  refine h stop _ whole ?_ n (by simp; omega)
  rintro (_ | n) hn
  · omega
  · simp only [List.length_cons, List.length_append] at hn
    refine .present rfl (.advance (.any .leftParen) (by decide) fun _ _ => ?_)
    refine (hg n (by omega)).bind (.intro hp) (.expect (by decide) _ (.own paren) hp ?_)
    rintro _ rfl
    exact rest n (by omega)

theorem ReadsUnary.unary {operator : Token} {operand : Expr} (h : ReadsUnary operand)
    (ho : operator.kind = .bang ∨ operator.kind = .minus) :
    ReadsUnary (.unary operator operand) := by
  have operates : isUnary operator.kind := by obtain ho | ho := ho <;> rw [ho] <;> rfl
  rintro (_ | n) hn
  · omega
  · rw [Expr.spelling, List.length_cons] at hn
    refine .peek (P := (· = operator.kind)) rfl fun t ht => ?_
    rw [ht, if_pos operates]
    refine .advance (.own operator) (ne_eof_of_isUnary operates) ?_
    rintro _ rfl
    exact .last (h n (by omega)) .pure

theorem past_of_operates (graded : Graded (level :: tighter)) {kind : Kind}
    (ho : level.operates kind) : Past tighter kind := by
  refine ⟨?_, fun other h => Bool.eq_false_iff.2 fun ho' => ?_⟩
  · rintro rfl
    cases level <;> cases ho
  · have tight := graded.2.leastRank_le other h
    rw [graded.1, ← Level.operates_iff.1 ho, Level.operates_iff.1 ho'] at tight
    omega

theorem ReadsJoined.join {left right : Expr} {operator : Token} (graded : Graded (level :: tighter))
    (ho : level.operates operator.kind) (hl : ReadsJoined level tighter left)
    (hr : ReadsOperation tighter right) :
    ReadsJoined level tighter (level.join left operator right) := by
  intro stop more whole begins rest n hn
  rw [Level.spelling_join] at hn ⊢
  rw [List.length_append, List.length_cons] at hn
  rw [List.append_assoc, List.cons_append]
  have begins' : Begins (Past tighter) (.own operator :: (right.spelling ++ more)) stop :=
    .intro (past_of_operates graded ho)
  have few := graded.2.length_add
  refine hl stop _ whole begins' ?_ n (by simp; omega)
  rintro (_ | n) hn
  · omega
  · simp only [List.length_cons, List.length_append] at hn
    refine .peek (P := (· = operator.kind)) rfl fun t ht => ?_
    rw [ht, if_pos ho]
    refine .advance (.own operator) (ne_eof_of_operates ho) ?_
    rintro _ rfl
    have read := rest n (by omega)
    rw [Level.unbound_join] at read
    exact (hr n (by omega)).bind begins read

theorem readable_joined {left right : Expr} {operator : Token}
    (he : ∀ level : Level, level.rank = operator.kind.precedence →
      level.join left operator right = e)
    (rank : e.rank = operator.kind.precedence) (joined : left.Joined operator right)
    (hl : Readable left) (hr : Readable right) : Readable e := by
  have loose := precedence_le operator.kind
  refine readable_of_own (rank ▸ joined.operates) (fun _ => by omega) (fun _ => by omega) ?_
  intro level tighter graded same
  rw [rank] at same
  rw [← he level same]
  have tight : leastRank tighter ≤ right.rank := by rw [graded.1, same]; exact joined.right
  exact .join graded (Level.operates_iff.2 same.symm) (hl.joined graded (same ▸ joined.left))
    (hr.operation graded.2 tight)

theorem readable_unary {operator : Token} {operand : Expr} (h : ReadsUnary operand)
    (ho : operator.kind = .bang ∨ operator.kind = .minus) : Readable (.unary operator operand) := by
  have rank : (Expr.unary operator operand).rank = 7 := rfl
  refine readable_of_own (by omega) (fun _ => by omega) (fun _ => h.unary ho) ?_
  intro level _ _ same
  have := level.rank_le
  omega

theorem readable_assign {name : Token} {value : Expr} (hn : name.kind = .identifier)
    (h : Readable value) (depth : Option Nat) : Readable (.assign name value depth) where
  call := nofun
  unary := nofun
  joined := by
    intro level tighter _ loose
    exact absurd level.rank_pos (Nat.not_lt.2 loose)
  operation := by
    rintro (_ | ⟨level, _⟩) _ loose
    · cases loose
    · exact absurd level.rank_pos (Nat.not_lt.2 loose)
  expression := by
    rintro (_ | n) steps
    · omega
    · rw [Expr.spelling, List.length_cons, List.length_cons] at steps
      have target := (readsCall_variable hn none).readable (Nat.le_succ 8)
      have loose : leastRank Level.all ≤ 9 := by decide
      have read := target.operation graded_all loose n (by simp [Expr.spelling, Level.all]; omega)
      have begins : Begins (Past Level.all) (.any .equal :: value.spelling) Closes :=
        .intro (by decide)
      refine read.bind begins ?_
      refine .present rfl (.finding _ fun wrong => .advance (.any .equal) (by decide) fun _ _ => ?_)
      exact .last (h.expression n (by omega)) .pure

theorem listSpelling_cons (first : Expr) (rest : List Expr) :
    ∃ more, Expr.listSpelling (first :: rest) = first.spelling ++ more := by
  cases rest with
  | nil => exact ⟨[], by simp [Expr.listSpelling]⟩
  | cons next rest => exact ⟨_, by rw [Expr.listSpelling]⟩

theorem accepts_arguments : ∀ {es : List Expr} (count n : Nat), es ≠ [] → (∀ e ∈ es, Readable e) →
    count + es.length ≤ 255 → 20 * (Expr.listSpelling es).length + 11 ≤ n →
    Accepts (· = .rightParen) (arguments n count) (Expr.listSpelling es) (Expr.listUnbound es)
  | [], _, _, nonempty, _, _, _ => absurd rfl nonempty
  | _, _, 0, _, _, _, steps => by omega
  | [last], count, n + 1, _, h, few, steps => by
    refine .noteHereIf (decide_eq_false (Nat.not_le.2 few)) _ ?_
    rw [Expr.listSpelling] at steps ⊢
    have read := (h last (List.mem_singleton_self last)).expression n (by omega)
    refine .last (read.before (by decide)) (.absent ?_ .pure)
    rintro _ rfl
    decide
  | first :: next :: rest, count, n + 1, _, h, few, steps => by
    rw [List.length_cons] at few
    refine .noteHereIf (decide_eq_false (by unfold mostArguments; omega)) _ ?_
    rw [Expr.listSpelling] at steps ⊢
    rw [List.length_append, List.length_cons] at steps
    have read := (h first (List.mem_cons_self ..)).expression n (by omega)
    refine read.bind (.intro (by decide)) ?_
    refine .present rfl (.advance (.any .comma) (by decide) fun _ _ => ?_)
    have more := accepts_arguments (count + 1) n (List.cons_ne_nil next rest)
      (fun e he => h e (List.mem_cons_of_mem _ he)) (by omega) (by omega)
    exact .last more .pure

theorem accepts_given {es : List Expr} (hs : Expr.ListShaped es) (h : ∀ e ∈ es, Readable e)
    (few : es.length ≤ 255) (n : Nat) (hn : 20 * (Expr.listSpelling es).length + 11 ≤ n) :
    Accepts (· = .rightParen) (Rule.unlessAt .rightParen [] (arguments n 0)) (Expr.listSpelling es)
      (Expr.listUnbound es) := by
  cases es with
  | nil => exact .present (fun _ h => h) .pure
  | cons first rest =>
    refine .absent ?_ (accepts_arguments 0 n (List.cons_ne_nil first rest) h (by omega) hn)
    obtain ⟨more, same⟩ := listSpelling_cons first rest
    rw [same]
    exact begins_expr_ne hs.1 (by decide) more

end

mutual

theorem readable_expr : ∀ {e : Expr}, e.Shaped → Readable e
  | .literal value, _ => (readsCall_literal value).readable (Nat.le_succ 8)
  | .grouping inner, h =>
    (readsCall_grouping (readable_expr (e := inner) h)).readable (Nat.le_succ 8)
  | .unary _ _, ⟨operator, rank, h⟩ => readable_unary ((readable_expr h).unary rank) operator
  | .binary _ _ _, ⟨tight, joined, hl, hr⟩ => by
    refine readable_joined (fun level same => ?_) rfl joined (readable_expr hl) (readable_expr hr)
    rw [← same] at tight
    cases level with
    | disjunction | conjunction => exact absurd tight (by decide)
    | _ => rfl
  | .logical _ _ _, ⟨loose, joined, hl, hr⟩ => by
    refine readable_joined (fun level same => ?_) rfl joined (readable_expr hl) (readable_expr hr)
    rw [← same] at loose
    cases level with
    | disjunction | conjunction => rfl
    | _ => exact absurd loose (by decide)
  | .variable _ depth, h => (readsCall_variable h depth).readable (Nat.le_succ 8)
  | .assign _ _ depth, ⟨hn, h⟩ => readable_assign hn (readable_expr h) depth
  | .call _ _ _, ⟨hp, rank, h, few, hs⟩ =>
    (((readable_expr h).call rank).call hp (accepts_given hs (readable_list hs) few)).readable
      (Nat.le_refl 8)

theorem readable_list : ∀ {es : List Expr}, Expr.ListShaped es → ∀ e ∈ es, Readable e
  | [], _ => nofun
  | _ :: _, ⟨h, hs⟩ => List.forall_mem_cons.2 ⟨readable_expr h, readable_list hs⟩

end

end Lox.Grammar
