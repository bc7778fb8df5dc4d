import Lox.Proofs.Machine.Changes
import Lox.Proofs.Session.Reads
import Lox.Proofs.Syntax.Nodes

/-!
# Bound writes

In a reachable session, an assignment of a name that was bound to a distance finds the name in the
frame that many links out, unless it stands in the initializer of a local variable of that very
name: that frame is then the one that the name is about to be declared in (`bound_writes_hit`). So
every name gets into a frame by a declaration or as a parameter.
-/

namespace Lox

-- ---------------------------------------------------------------------------
-- Names of a heap
-- ---------------------------------------------------------------------------

theorem Bindings.map_fst_insert {name : String} (v : Value) {b : Bindings}
    (bound : (b.lookup name).isSome) : (b.insert name v).map Prod.fst = b.map Prod.fst := by
  induction b with
  | nil => cases bound
  | cons entry rest ih =>
    obtain ⟨key, old⟩ := entry
    unfold Bindings.insert
    by_cases same : key = name
    · simp [same]
    · rw [if_neg same, List.map_cons, List.map_cons, ih]
      rwa [List.lookup_cons, beq_eq_false_iff_ne.2 (Ne.symm same)] at bound

theorem Heap.names_define {h : Heap} {frame : Nat} {name : String} (v : Value)
    (bound : (h.own? frame name).isSome) (other : Nat) :
    (h.define frame name v).names other = h.names other := by
  unfold names
  rw [bindings_define]
  split
  · next here => exact Bindings.map_fst_insert v (here.1 ▸ bound)
  · rfl

-- ---------------------------------------------------------------------------
-- Expressions in statements
-- ---------------------------------------------------------------------------

mutual

theorem Expr.accepted_nodes {s : Scopes} :
    ∀ e : Expr, e.Accepted s → ∀ x ∈ e.nodes, x.Accepted s
  | .literal _, ha | .variable _ _, ha => by simpa [Expr.nodes] using ha
  | .grouping inner, ha | .unary _ inner, ha =>
    List.forall_mem_cons.2 ⟨ha, inner.accepted_nodes ha⟩
  | .binary left _ right, ha | .logical left _ right, ha =>
    List.forall_mem_cons.2 ⟨ha,
      List.forall_mem_append.2 ⟨left.accepted_nodes ha.1, right.accepted_nodes ha.2⟩⟩
  | .assign _ value _, ha => List.forall_mem_cons.2 ⟨ha, value.accepted_nodes ha.1⟩
  | .call callee _ arguments, ha =>
    List.forall_mem_cons.2 ⟨ha,
      List.forall_mem_append.2 ⟨callee.accepted_nodes ha.1, Expr.accepted_listNodes arguments ha.2⟩⟩

theorem Expr.accepted_listNodes {s : Scopes} :
    ∀ es : List Expr, Expr.ListAccepted s es → ∀ x ∈ Expr.listNodes es, x.Accepted s
  | [], _ => by simp [Expr.listNodes]
  | e :: rest, ha =>
    List.forall_mem_append.2 ⟨e.accepted_nodes ha.1, Expr.accepted_listNodes rest ha.2⟩

end

/-- The expression is a part of the part itself, and not of a statement or a function that it
runs. -/
def Part.Holds (x : Expr) : Part → Prop
  | .expression e => x ∈ e.nodes
  | .arguments es => x ∈ Expr.listNodes es
  | _ => False

section
variable {n k : Nat} {p : Part} {m m' : Machine} {x : Expr}

theorem Reaches.statement_around (h : Reaches n p m k (.expression x) m') :
    p.Holds x ∧ m'.current = m.current ∨
      ∃ n₀ t m₀ j e, Reaches n p m n₀ (.statement t) m₀ ∧
        Enters n₀ (.statement t) m₀ j (.expression e) m₀ ∧
        Reaches j (.expression e) m₀ k (.expression x) m' ∧
        x ∈ e.nodes ∧ m'.current = m₀.current := by
  generalize hq : Part.expression x = q at h
  induction h with
  | here =>
    subst hq
    exact .inl ⟨x.mem_nodes_self, rfl⟩
  | step entered reached ih =>
    subst hq
    obtain ⟨holds, same⟩ | ⟨n₀, t, m₀, j, e, above, enters, below, mem, same⟩ := ih rfl
    · have evaluated {n : Nat} {e : Expr} {a : Value} {m m' : Machine}
          (h : e.evaluate n m = .done a m') : m'.current = m.current :=
        ((e.evaluate_grows n).done h).current
      cases entered with
      | grouping | operand | assigned => exact .inl ⟨List.mem_cons_of_mem _ holds, same⟩
      | binaryLeft | logicalLeft | callee =>
        exact .inl ⟨List.mem_cons_of_mem _ (List.mem_append_left _ holds), same⟩
      | binaryRight he | logicalRight he _ | arguments he =>
        exact .inl ⟨List.mem_cons_of_mem _ (List.mem_append_right _ holds),
          same.trans (evaluated he)⟩
      | firstArgument => exact .inl ⟨List.mem_append_left _ holds, same⟩
      | otherArguments he => exact .inl ⟨List.mem_append_right _ holds, same.trans (evaluated he)⟩
      | expression => exact .inr ⟨_, _, _, _, _, .here, .expression, reached, holds, same⟩
      | printed => exact .inr ⟨_, _, _, _, _, .here, .printed, reached, holds, same⟩
      | initializer => exact .inr ⟨_, _, _, _, _, .here, .initializer, reached, holds, same⟩
      | branchCondition => exact .inr ⟨_, _, _, _, _, .here, .branchCondition, reached, holds, same⟩
      | loopCondition => exact .inr ⟨_, _, _, _, _, .here, .loopCondition, reached, holds, same⟩
      | returned => exact .inr ⟨_, _, _, _, _, .here, .returned, reached, holds, same⟩
      | _ => cases holds
    · exact .inr ⟨n₀, t, m₀, j, e, .step entered above, enters, below, mem, same⟩

theorem Enters.own_expression {t : Stmt} (h : Enters n (.statement t) m k (.expression x) m')
    (hp : (Part.statement t).Fits m) :
    ∃ s : Scopes, m.heap.Fits s.locals m.current ∧ Settled s.locals ∧
      (x.Accepted s ∨
        ∃ declared, t = .variable declared (some x) ∧ x.Accepted (s.declare declared.lexeme)) := by
  obtain ⟨s, inFunction, fits, settled, accepted⟩ := hp
  refine ⟨s, fits, settled, ?_⟩
  cases h with
  | expression | printed => exact .inl accepted
  | @initializer _ name e => exact .inr ⟨name, rfl, accepted.2 x rfl⟩
  | @branchCondition _ _ _ alternative => cases alternative <;> exact .inl accepted.1
  | loopCondition => exact .inl accepted.1
  | returned => exact .inl (accepted.2 _ rfl)

end

-- ---------------------------------------------------------------------------
-- Assignments
-- ---------------------------------------------------------------------------

/-- The expression runs as a part of the initializer of a variable of the name, in the frame that
the variable is declared in. -/
def Part.Initializes (n : Nat) (p : Part) (m : Machine) (name : String) (k : Nat) (x : Expr)
    (m' : Machine) : Prop :=
  ∃ n₀ declared initializer m₀ j,
    Reaches n p m n₀ (.statement (.variable declared (some initializer))) m₀ ∧
    declared.lexeme = name ∧ x ∈ initializer.nodes ∧
    Reaches j (.expression initializer) m₀ k (.expression x) m' ∧ m'.current = m₀.current

theorem Settled.head_awaits {s : Scopes} (settled : Settled s.locals) (name : String) :
    ∀ scope ∈ s.locals.head?, scope.awaits name = false :=
  fun scope mem => settled scope (List.mem_of_mem_head? mem) name

section
variable {n k d : Nat} {ts : List Stmt} {m m' m'' : Machine} {name : Token} {value : Expr}
    {v : Value}

theorem Reaches.assigned
    (h : Reaches n (.program ts) m k (.expression (.assign name value (some d))) m') (hm : m.Sound)
    (hp : (Part.program ts).Fits m) :
    ∃ s : Scopes, m'.heap.Fits s.locals m'.current ∧ s.distance name.lexeme = some d ∧
      ((∀ scope ∈ s.locals.head?, scope.awaits name.lexeme = false) ∨
        d = 0 ∧ Part.Initializes n (.program ts) m name.lexeme k
        (.assign name value (some d)) m') := by
  obtain ⟨none, -⟩ | ⟨n₀, t, m₀, j, e, above, enters, below, mem, same⟩ := h.statement_around
  · cases none
  obtain ⟨s, fits, settled, accepted⟩ := enters.own_expression (above.fits hm hp).2
  have fits : m'.heap.Fits s.locals m'.current := same ▸ fits.mono below.grows
  obtain accepted | ⟨declared, rfl, accepted⟩ := accepted
  · have here := e.accepted_nodes accepted _ mem
    exact ⟨s, fits, here.2.symm, .inl (settled.head_awaits name.lexeme)⟩
  · have here := e.accepted_nodes accepted _ mem
    have locals := s.locals_declare declared.lexeme
    refine ⟨s.declare declared.lexeme, ?_, here.2.symm, ?_⟩
    · rw [locals]
      exact fits.declare declared.lexeme
    cases hl : s.locals with
    | nil =>
      have far := here.2
      rw [Scopes.distance, locals, hl] at far
      cases far
    | cons scope outer =>
      rw [hl, List.modifyHead_cons] at locals
      by_cases own : declared.lexeme = name.lexeme
      · have near := here.2
        rw [Scopes.distance, locals, List.findIdx?_cons] at near
        simp only [Scope.declares_mark, own, decide_true, Bool.true_or, if_true] at near
        exact .inr ⟨Option.some.inj near, n₀, declared, e, m₀, j, above, own, mem, below, same⟩
      · refine .inl fun head mem => ?_
        rw [locals] at mem
        cases mem
        have quiet := settled scope (by simp [hl]) name.lexeme
        unfold Scope.awaits at quiet ⊢
        rwa [Scope.lookup_mark, if_neg (Ne.symm own)]

theorem Reaches.write_bound
    (h : Reaches n (.program ts) m k (.expression (.assign name value (some d))) m') (hm : m.Sound)
    (hp : (Part.program ts).Fits m) (hv : value.evaluate j m' = .done v m'') :
    ∃ frame, (m''.heap.chain m''.current)[d]? = some frame ∧
      m''.heap.ancestor m''.current d = frame ∧ frame ≠ Heap.globalFrame ∧
      ((m''.heap.own? frame name.lexeme).isSome ∨ d = 0 ∧
        Part.Initializes n (.program ts) m name.lexeme k (.assign name value (some d)) m') := by
  obtain ⟨s, fits, far, ready⟩ := h.assigned hm hp
  have fits := ((value.evaluate_grows j).done hv).fits fits
  obtain ready | ⟨rfl, initializes⟩ := ready
  · obtain ⟨frame, chain, here, inner, bound⟩ := fits.found far ready
    exact ⟨frame, chain, here, inner, .inl bound⟩
  · refine ⟨m''.current, ?_, rfl, ?_, .inr ⟨rfl, initializes⟩⟩
    · rw [Heap.chain.eq_def]
      split <;> rfl
    · intro global
      cases hl : s.locals with
      | nil =>
        rw [Scopes.distance, hl] at far
        cases far
      | cons scope outer =>
        rw [hl] at fits
        cases fits with
        | frame link => exact absurd (Heap.enclosing?_lt link) (by simp [global, Heap.globalFrame])

end

-- ---------------------------------------------------------------------------
-- Where names come from
-- ---------------------------------------------------------------------------

/-- The part itself brings the name into the frame: a declaration into the current one, a call with
its parameters into the one that it makes. -/
inductive Part.Introduces (m : Machine) : Part → Nat → String → Prop
  | declared {t : Stmt} {name : Token} :
    t.declared? = some name → Introduces m (.statement t) m.current name.lexeme
  | parameter {c : Callable} {values : List Value} {function : Function} {frame : Nat}
    {name : Token} :
    c.callee = .closure function frame → name ∈ function.parameters →
    Introduces m (.call c values) m.heap.frames.size name.lexeme

/-- All names of the heap that are not in the first heap were introduced at a point of the run. -/
def Part.Accounts (n : Nat) (p : Part) (m : Machine) (h h' : Heap) : Prop :=
  ∀ frame name, (h'.own? frame name).isSome → (h.own? frame name).isSome ∨
    ∃ k q m', Reaches n p m k q m' ∧ q.Introduces m' frame name

theorem Part.Accounts.trans {n : Nat} {p : Part} {m : Machine} {a b c : Heap}
    (hab : p.Accounts n m a b) (hbc : p.Accounts n m b c) : p.Accounts n m a c := by
  intro frame name bound
  obtain bound | introduced := hbc frame name bound
  · exact hab frame name bound
  · exact .inr introduced

theorem Part.Accounts.of_changes {n : Nat} {p : Part} {m : Machine} {h h' : Heap}
    (changes : Relation.ReflTransGen (p.Accounts n m) h h') : p.Accounts n m h h' := by
  induction changes with
  | refl => exact fun _ _ => .inl
  | tail _ last ih => exact ih.trans last

theorem Heap.isSome_own?_define {h : Heap} {frame other : Nat} {name key : String} {v : Value}
    (bound : ((h.define frame name v).own? other key).isSome) :
    other = frame ∧ key = name ∨ (h.own? other key).isSome := by
  rw [own?_define] at bound
  split at bound
  · next here => exact .inl ⟨here.1.symm, here.2.2⟩
  · exact .inr bound

theorem Function.parameter_of_bindings {function : Function} {values : List Value} {name : String}
    (bound : ((function.bindings values).lookup name).isSome) :
    ∃ p ∈ function.parameters, p.lexeme = name := by
  obtain none | mem := (Function.lookup_foldl_insert _ [] name).1.1 bound
  · cases none
  · obtain ⟨⟨p, v⟩, given, rfl⟩ := List.mem_map.1 mem
    exact ⟨p, (List.of_mem_zip given).1, rfl⟩

theorem Part.covers_accounts {n : Nat} {ts : List Stmt} {m : Machine} (hm : m.Sound)
    (hp : (Part.program ts).Fits m) :
    (Part.program ts).Covers n m ((Part.program ts).Accounts n m) := by
  intro k q m' h h' reached writes frame name bound
  have declared {t : Stmt} {token : Token} (hq : q = .statement t) (ht : t.declared? = some token)
      {m₁ : Machine} (same : m₁.current = m'.current) (here : frame = m₁.current ∧
        name = token.lexeme) :
      ∃ k q m', Reaches n (.program ts) m k q m' ∧ q.Introduces m' frame name := by
    obtain ⟨rfl, rfl⟩ := here
    exact ⟨k, q, m', reached, by rw [hq, same]; exact .declared ht⟩
  cases writes with
  | @assign j token value depth _ v m₁ m₂ hv ha =>
    cases depth with
    | none =>
      rw [Run.assign_global] at ha
      split at ha
      · next known =>
        cases ha
        obtain ⟨rfl, rfl⟩ | bound := Heap.isSome_own?_define bound
        · exact .inl known
        · exact .inl bound
      · cases ha
    | some d =>
      cases ha
      obtain ⟨rfl, rfl⟩ | bound := Heap.isSome_own?_define bound
      · obtain ⟨holder, -, rfl, -, hit | ⟨rfl, own⟩⟩ := reached.write_bound hm hp hv
        · exact .inl hit
        · obtain ⟨n₀, declared, initializer, m₀, _, above, same, -, -, current⟩ := own
          refine .inr ⟨n₀, _, m₀, above, ?_⟩
          have here : m₁.heap.ancestor m₁.current 0 = m₀.current :=
            ((value.evaluate_grows j).done hv).current.trans current
          rw [here, ← same]
          exact .declared rfl
      · exact .inl bound
  | declaration =>
    exact (Heap.isSome_own?_define bound).symm.imp_right fun here => declared rfl rfl rfl here
  | definition hv =>
    have same := ((Expr.evaluate_grows _ _).done hv).current
    exact (Heap.isSome_own?_define bound).symm.imp_right fun here => declared rfl rfl same here
  | function =>
    exact (Heap.isSome_own?_define bound).symm.imp_right fun here => declared rfl rfl rfl here
  | block =>
    rw [Heap.own?_push] at bound
    split at bound
    · cases bound
    · exact .inl bound
  | @call _ c values _ function outer hc =>
    rw [Heap.own?_push] at bound
    split at bound
    · next new =>
      obtain ⟨p, mem, rfl⟩ := Function.parameter_of_bindings bound
      exact .inr ⟨_, _, _, reached, new ▸ .parameter hc mem⟩
    · exact .inl bound

-- ---------------------------------------------------------------------------
-- Programs in a session
-- ---------------------------------------------------------------------------

/-- In a reachable session, an assignment with a distance writes a name that the frame that many
links out binds, and no frame gets a name by it, unless it is a part of the initializer of a
variable of that name in the frame it writes to. At every point, and however the program ends, each
name in a frame was there before the program or was brought there by a declaration or as a
parameter. -/
theorem bound_writes_hit {s : Session} (hs : s.Reachable) {tokens : List Token}
    {reading : Grammar.Reading} (hp : Grammar.parse tokens = .ok reading) {bound : Bound}
    (hb : Bound.ofStatements s.machine.globalNames reading.statements = bound)
    (he : bound.errors = []) (steps : Nat) :
    (∀ k name value d m v m',
      Reaches steps (.program bound.statements) s.machine (k + 1)
        (.expression (.assign name value (some d))) m →
      value.evaluate k m = .done v m' →
      ∃ frame, (m'.heap.chain m'.current)[d]? = some frame ∧ m'.heap.ancestor m'.current d = frame ∧
        frame ≠ Heap.globalFrame ∧
        Run.assign name (some d) v m' =
          .done () { m' with heap := m'.heap.define frame name.lexeme v } ∧
        ((m'.heap.own? frame name.lexeme).isSome ∧
            (∀ other, (m'.heap.define frame name.lexeme v).names other = m'.heap.names other) ∨
          d = 0 ∧ Part.Initializes steps (.program bound.statements) s.machine name.lexeme (k + 1)
            (.assign name value (some d)) m)) ∧
    (∀ k q m, Reaches steps (.program bound.statements) s.machine k q m →
      Part.Accounts steps (.program bound.statements) s.machine s.machine.heap m.heap) ∧
    (Stmt.runProgram steps bound.statements s.machine).Ends
      (fun _ m => Part.Accounts steps (.program bound.statements) s.machine s.machine.heap m.heap)
      (fun m => Part.Accounts steps (.program bound.statements) s.machine
        s.machine.heap m.heap) := by
  subst hb
  have rests := hs.resting
  have accepted := accepted_of_parse hp he
  have fits : (Part.program (Bound.ofStatements s.machine.globalNames
      reading.statements).statements).Fits s.machine :=
    ⟨Scopes.topLevel s.machine.globalNames, rests.fits, by simp [Settled, Scopes.topLevel],
      accepted⟩
  have covers := Part.covers_accounts (n := steps) rests.sound fits
  refine ⟨fun k name value d m v m' h hv => ?_, fun k q m h => ?_, ?_⟩
  · obtain ⟨frame, chain, here, inner, hit⟩ := h.write_bound rests.sound fits hv
    have write : Run.assign name (some d) v m' =
        .done () { m' with heap := m'.heap.define frame name.lexeme v } := by
      rw [← here]
      rfl
    exact ⟨frame, chain, here, inner, write, hit.imp_left fun bound =>
      ⟨bound, Heap.names_define v bound⟩⟩
  · exact .of_changes (h.changes covers)
  · exact (Stmt.runProgram_changes steps covers).mono (fun _ _ => .of_changes)
      (fun _ => .of_changes)

def inInnerBlock (tokens : List Token) : List Token :=
  [⟨.leftBrace, "\x7b", none, 1⟩, ⟨.kwVar, "var", none, 1⟩, ⟨.identifier, "a", none, 1⟩,
    ⟨.semicolon, ";", none, 1⟩, ⟨.leftBrace, "\x7b", none, 1⟩] ++ tokens ++
    [⟨.rightBrace, "\x7d", none, 1⟩, ⟨.kwPrint, "print", none, 1⟩, ⟨.identifier, "a", none, 1⟩,
      ⟨.semicolon, ";", none, 1⟩, ⟨.rightBrace, "\x7d", none, 1⟩, Token.atEnd 1]

def writesTrue : List Token :=
  [⟨.identifier, "a", none, 1⟩, ⟨.equal, "=", none, 1⟩, ⟨.kwTrue, "true", none, 1⟩,
    ⟨.semicolon, ";", none, 1⟩]

theorem bound_writes_hit_inner :
    let m := Machine.initial (.buffer "") fun _ => 0
    let name : Token := ⟨.identifier, "a", none, 1⟩
    let value : Expr := .literal (.boolean true)
    let program := [Stmt.block [.variable name none,
      .block [.expression (.assign name value (some 1))], .print (.variable name (some 0))]]
    ∃ m', Reaches 8 (.program program) m 2 (.expression (.assign name value (some 1))) m' ∧
      ∃ frame, m'.heap.ancestor m'.current 1 = frame ∧ frame ≠ Heap.globalFrame ∧
        (m'.heap.own? frame "a").isSome := by
  intro m name value program
  have reached : ∃ m', Reaches 8 (.program program) m 2
      (.expression (.assign name value (some 1))) m' := by
    apply Exists.intro
    apply Reaches.step .programFirst
    apply Reaches.step .block
    apply Reaches.step (.rest rfl)
    apply Reaches.step .first
    apply Reaches.step .block
    apply Reaches.step .first
    exact .step .expression .here
  obtain ⟨m', reached⟩ := reached
  have parsed : ∃ reading, Grammar.parse (inInnerBlock writesTrue) = .ok reading ∧
      (Bound.ofStatements ["clock"] reading.statements).statements = program ∧
      (Bound.ofStatements ["clock"] reading.statements).errors = [] := ⟨_, rfl, rfl, rfl⟩
  obtain ⟨reading, hp, hs, he⟩ := parsed
  have session : (Session.start (.buffer "") fun _ => 0).Reachable := .start _ _
  obtain ⟨frame, -, here, inner, -, hit | ⟨far, -⟩⟩ :=
    (bound_writes_hit session hp rfl he 8).1 1 name value 1 m' _ m' (hs ▸ reached) rfl
  · exact ⟨m', reached, frame, here, inner, hit.1⟩
  · cases far

/-- With `var a = a = true;` in the inner block the assignment writes to the frame of that block,
where the name is not bound yet. -/
theorem bound_writes_miss_own_initializer :
    ∃ reading, Grammar.parse (inInnerBlock (⟨.kwVar, "var", none, 1⟩ ::
        ⟨.identifier, "a", none, 1⟩ :: ⟨.equal, "=", none, 1⟩ :: writesTrue)) = .ok reading ∧
      (Bound.ofStatements ["clock"] reading.statements).errors = [] ∧
      ∃ k name value m v m',
        Reaches 8 (.program (Bound.ofStatements ["clock"] reading.statements).statements)
          (Machine.initial (.buffer "") fun _ => 0) (k + 1)
          (.expression (.assign name value (some 0))) m ∧
        value.evaluate k m = .done v m' ∧
        m'.heap.own? (m'.heap.ancestor m'.current 0) name.lexeme = none := by
  refine ⟨_, rfl, rfl, 1, _, _, _, _, _, .step .programFirst (.step .block (.step (.rest rfl)
    (.step .first (.step .block (.step .first (.step .initializer .here)))))), rfl, ?_⟩
  rfl

end Lox
