import Lox.Proofs.Session.Reachable

/-!
# Every return belongs to a call

A `return` that ends a statement ends the statements around it, up to the body of a function, and
becomes the value of the call that runs the body. At top level nothing would take it: a program runs
on behind a statement that returns. But a statement that is accepted outside of functions does not
return.
-/

namespace Lox

variable {α β : Type}

-- ---------------------------------------------------------------------------
-- Statements outside of functions
-- ---------------------------------------------------------------------------

def Outcome.Normal (o : Outcome Completion) : Prop :=
  o.Ends (fun completion _ => completion = .normal) fun _ => True

theorem Outcome.Ends.any (o : Outcome α) : o.Ends (fun _ _ => True) fun _ => True := by
  cases o <;> trivial

theorem Outcome.Normal.after {x : Run α} {f : α → Run Completion} {m : Machine}
    (hf : ∀ a m', (f a m').Normal) : ((x >>= f) m).Normal :=
  Outcome.Ends.bind (Outcome.Ends.any (x m)) fun a m' _ _ => hf a m'

mutual

theorem Stmt.execute_normal : ∀ (n : Nat) (t : Stmt) {s : Scopes} (m : Machine),
    t.Accepted s false → (t.execute n m).Normal
  | 0, _, _, _, _ => trivial
  | _ + 1, .expression _, _, _, _ => .after fun _ _ => rfl
  | _ + 1, .print _, _, _, _ => .after fun _ _ => rfl
  | _ + 1, .variable _ none, _, _, _ => rfl
  | _ + 1, .variable _ (some _), _, _, _ => .after fun _ _ => rfl
  | n + 1, .block body, _, m, ha => by
    rw [Stmt.execute, Run.inBlock, Run.inNewFrame_apply]
    refine Outcome.Ends.onMachine (Stmt.executeList_normal n body _ ha) ?_ ?_
    · exact fun _ _ h => h
    · exact fun _ h => h
  | n + 1, .branch condition consequent alternative, _, _, ha => by
    refine .after fun value m' => ?_
    cases alternative with
    | none =>
      split
      · exact consequent.execute_normal n m' ha.2.2
      · rfl
    | some other =>
      split
      · exact consequent.execute_normal n m' ha.2.1.2
      · exact other.execute_normal n m' ha.2.2.2
  | n + 1, .loop condition body, _, _, ha => by
    refine .after fun value m₁ => ?_
    split
    · refine Outcome.Ends.bind (body.execute_normal n m₁ ha.2.2) ?_
      rintro _ m₂ - rfl
      exact Stmt.execute_normal n (.loop condition body) m₂ ha
    · rfl
  | _ + 1, .function .., _, _, _ => rfl
  | _ + 1, .return _ _, _, _, ha => nomatch ha.1

theorem Stmt.executeList_normal : ∀ (n : Nat) (ts : List Stmt) {s : Scopes} (m : Machine),
    Stmt.ListAccepted s false ts → (Stmt.executeList n ts m).Normal
  | 0, _, _, _, _ => trivial
  | _ + 1, [], _, _, _ => rfl
  | n + 1, first :: rest, _, m, ha => by
    refine Outcome.Ends.bind (first.execute_normal n m ha.1) ?_
    rintro _ m' - rfl
    exact Stmt.executeList_normal n rest m' ha.2

end

theorem Stmt.Accepted.not_returned {t : Stmt} {s : Scopes} (ha : t.Accepted s false) {n : Nat}
    {m m' : Machine} {v : Value} : t.execute n m ≠ .done (.returned v) m' := by
  intro h
  have normal : Completion.returned v = .normal := (t.execute_normal n m ha).of_done h
  cases normal

-- ---------------------------------------------------------------------------
-- From a return to its call
-- ---------------------------------------------------------------------------

def Part.Returns (n : Nat) (m : Machine) (v : Value) : Part → Prop
  | .statement t => ∃ m', t.execute n m = .done (.returned v) m'
  | .statements ts => ∃ m', Stmt.executeList n ts m = .done (.returned v) m'
  | _ => False

def Part.IsCall : Part → Prop
  | .call _ _ => True
  | _ => False

/-- The run of the first part comes to run the second one, and enters no call on the way. -/
inductive ReachesInCall : Nat → Part → Machine → Nat → Part → Machine → Prop
  | here {n p m} : ReachesInCall n p m n p m
  | step {n p m k q m' j r m''} :
    Enters n p m k q m' → ¬ q.IsCall → ReachesInCall k q m' j r m'' → ReachesInCall n p m j r m''

/-- The run of the first part makes a call, in which it comes to the second part without another
call between them, and the value is what the call gives. -/
def Part.GivenByCall (n : Nat) (p : Part) (m : Machine) (k : Nat) (q : Part) (m' : Machine)
    (v : Value) : Prop :=
  ∃ j c values m₁ m₂, Reaches n p m j (.call c values) m₁ ∧
    ReachesInCall j (.call c values) m₁ k q m' ∧ c.call j values m₁ = .done v m₂

def Part.Guarded : Part → Prop
  | .program ts => ∃ s : Scopes, Stmt.ListAccepted s false ts
  | _ => True

section
variable {n k : Nat} {p q : Part} {m m' : Machine} {v : Value}

theorem Run.bind_of_done {x : Run α} {f : α → Run β} {a : α} (h : x m = .done a m') :
    (x >>= f) m = f a m' := by
  rw [bind_apply, h]

theorem Part.Returns.not_isCall (h : p.Returns n m v) : ¬ p.IsCall := by
  cases p with
  | call c values => exact h.elim
  | _ => exact id

theorem Enters.guarded (h : Enters n p m k q m') (hp : p.Guarded) : q.Guarded := by
  cases h with
  | programRest ht =>
    obtain ⟨s, accepted⟩ := hp
    exact ⟨_, accepted.2⟩
  | _ => trivial

theorem Enters.returns (h : Enters n p m k q m') (hp : p.Guarded) (hq : q.Returns k m' v) :
    p.Returns n m v ∨ ∃ c values m'', p = .call c values ∧ c.call n values m = .done v m'' := by
  cases h with
  | @body _ c values _ function frame hc =>
    obtain ⟨m₁, returned⟩ := hq
    refine .inr ⟨c, values, { m₁ with current := m.current }, rfl, ?_⟩
    rw [Callable.call, hc]
    refine (Run.bind_of_done (a := .returned v) ?_).trans rfl
    rw [Run.inNewFrame_apply, returned]
    rfl
  | block =>
    obtain ⟨m₁, returned⟩ := hq
    refine .inl ⟨{ m₁ with current := m.current }, ?_⟩
    rw [Stmt.execute, Run.inBlock, Run.inNewFrame_apply, returned]
    rfl
  | consequent hc truth =>
    obtain ⟨m₁, returned⟩ := hq
    refine .inl ⟨m₁, (Run.bind_of_done hc).trans ?_⟩
    rw [if_pos truth]
    exact returned
  | alternative hc truth =>
    obtain ⟨m₁, returned⟩ := hq
    refine .inl ⟨m₁, (Run.bind_of_done hc).trans ?_⟩
    rw [if_neg (by simp [truth])]
    exact returned
  | loopBody hc truth =>
    obtain ⟨m₁, returned⟩ := hq
    refine .inl ⟨m₁, (Run.bind_of_done hc).trans ?_⟩
    rw [if_pos truth]
    exact Run.bind_of_done returned
  | loopAgain hc truth hb =>
    obtain ⟨m₁, returned⟩ := hq
    refine .inl ⟨m₁, (Run.bind_of_done hc).trans ?_⟩
    rw [if_pos truth]
    exact (Run.bind_of_done hb).trans returned
  | first =>
    obtain ⟨m₁, returned⟩ := hq
    exact .inl ⟨m₁, Run.bind_of_done returned⟩
  | rest ht =>
    obtain ⟨m₁, returned⟩ := hq
    exact .inl ⟨m₁, (Run.bind_of_done ht).trans returned⟩
  | programFirst =>
    obtain ⟨s, accepted⟩ := hp
    obtain ⟨m₁, returned⟩ := hq
    exact absurd returned accepted.1.not_returned
  | _ => exact hq.elim

/-- From a point that returns outward: all parts return, up to a call that gives the value. -/
theorem Reaches.returns (h : Reaches n p m k q m') (hp : p.Guarded) (hq : q.Returns k m' v) :
    p.Returns n m v ∧ ReachesInCall n p m k q m' ∨ p.GivenByCall n m k q m' v := by
  induction h with
  | here => exact .inl ⟨hq, .here⟩
  | step entered _ ih =>
    rcases ih (entered.guarded hp) hq
      with ⟨returns, inside⟩ | ⟨j, c, values, m₁, m₂, reached, given⟩
    · have inside := ReachesInCall.step entered returns.not_isCall inside
      rcases entered.returns hp returns with returns | ⟨c, values, m₂, rfl, gives⟩
      · exact .inl ⟨returns, inside⟩
      · exact .inr ⟨_, c, values, _, m₂, .here, inside, gives⟩
    · exact .inr ⟨j, c, values, m₁, m₂, .step entered reached, given⟩

end

theorem Stmt.ListAccepted.mem {s : Scopes} {inFunction : Bool} {ts : List Stmt}
    (h : Stmt.ListAccepted s inFunction ts) {t : Stmt} (ht : t ∈ ts) :
    ∃ r : Scopes, t.Accepted r inFunction := by
  induction ts generalizing s with
  | nil => cases ht
  | cons first rest ih =>
    rcases List.mem_cons.1 ht with rfl | ht
    · exact ⟨s, h.1⟩
    · exact ih h.2 ht

/-- In any session, no statement at the top level of a program that was read and bound without error
ends in a `return`; and each `return` at any point of its run, through whatever statements, becomes
the value of the innermost call that runs there. -/
theorem returns_end_in_calls (s : Session) {tokens : List Token} {reading : Grammar.Reading}
    (hp : Grammar.parse tokens = .ok reading) {bound : Bound}
    (hb : Bound.ofStatements s.machine.globalNames reading.statements = bound)
    (he : bound.errors = []) (steps : Nat) :
    (∀ t ∈ bound.statements, ∀ m v m', t.execute steps m ≠ .done (.returned v) m') ∧
    ∀ k p m v, Reaches steps (.program bound.statements) s.machine k p m → p.Returns k m v →
      Part.GivenByCall steps (.program bound.statements) s.machine k p m v := by
  subst hb
  have accepted := accepted_of_parse hp he
  refine ⟨fun t ht m v m' => ?_, fun k p m v reached returns => ?_⟩
  · obtain ⟨r, ha⟩ := accepted.mem ht
    exact ha.not_returned
  · rcases reached.returns ⟨_, accepted⟩ returns with ⟨stray, -⟩ | given
    · exact stray.elim
    · exact given

def returnsFromBlock : List Token :=
  [⟨.leftBrace, "\x7b", none, 1⟩, ⟨.kwFun, "fun", none, 1⟩, ⟨.identifier, "f", none, 1⟩,
    ⟨.leftParen, "(", none, 1⟩, ⟨.rightParen, ")", none, 1⟩, ⟨.leftBrace, "\x7b", none, 1⟩,
    ⟨.leftBrace, "\x7b", none, 1⟩, ⟨.kwReturn, "return", none, 1⟩, ⟨.kwTrue, "true", none, 1⟩,
    ⟨.semicolon, ";", none, 1⟩, ⟨.rightBrace, "\x7d", none, 1⟩, ⟨.rightBrace, "\x7d", none, 1⟩,
    ⟨.identifier, "f", none, 2⟩, ⟨.leftParen, "(", none, 2⟩, ⟨.rightParen, ")", none, 2⟩,
    ⟨.semicolon, ";", none, 2⟩, ⟨.rightBrace, "\x7d", none, 2⟩, Token.atEnd 2]

theorem returns_end_in_calls_block :
    let m := Machine.initial (.buffer "") fun _ => 0
    let back : Stmt := .return ⟨.kwReturn, "return", none, 1⟩ (some (.literal (.boolean true)))
    let program := [Stmt.block [.function ⟨.identifier, "f", none, 1⟩ [] [.block [back]],
      .expression (.call (.variable ⟨.identifier, "f", none, 2⟩ (some 0))
        ⟨.rightParen, ")", none, 2⟩ [])]]
    ∃ k m', Reaches 12 (.program program) m k (.statement back) m' ∧
      Part.GivenByCall 12 (.program program) m k (.statement back) m' (.boolean true) := by
  intro m back program
  let f : Function := ⟨⟨.identifier, "f", none, 1⟩, [], [.block [back]]⟩
  let c : Callable := ⟨1, .closure f 1⟩
  let entered : Machine := m.entered 0 []
  let declared : Machine :=
    { entered with heap := entered.heap.define 1 "f" (.callable c), nextIdentity := 2 }
  have body : Enters 7 (.call c []) declared 6 (.statements f.body)
      (declared.entered 1 (f.bindings [])) := .body rfl
  have reached : ∃ m', Reaches 12 (.program program) m 3 (.statement back) m' ∧
      (Part.statement back).Returns 3 m' (.boolean true) := by
    apply Exists.intro
    constructor
    · apply Reaches.step .programFirst
      apply Reaches.step .block
      apply Reaches.step (.rest rfl)
      apply Reaches.step .first
      apply Reaches.step .expression
      apply Reaches.step (.call rfl rfl rfl)
      apply Reaches.step body
      apply Reaches.step .first
      apply Reaches.step .block
      exact .step .first .here
    · exact ⟨_, rfl⟩
  obtain ⟨m', hm', returns⟩ := reached
  have parsed : ∃ reading, Grammar.parse returnsFromBlock = .ok reading ∧
      (Bound.ofStatements ["clock"] reading.statements).statements = program ∧
      (Bound.ofStatements ["clock"] reading.statements).errors = [] := ⟨_, rfl, rfl, rfl⟩
  obtain ⟨reading, hp, hs, he⟩ := parsed
  have given := (returns_end_in_calls (.start (.buffer "") fun _ => 0) hp rfl he 12).2
  exact ⟨3, m', hm', hs ▸ given 3 (.statement back) m' (.boolean true) (hs ▸ hm') returns⟩

end Lox
