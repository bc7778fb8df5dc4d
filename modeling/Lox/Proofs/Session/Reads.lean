import Lox.Proofs.Scope.Sequence
import Lox.Proofs.Session.Reachable

/-!
# Bound names are found

In a reachable session, a name that was bound to a distance is found at that distance whenever it is
read, in the program that runs and in functions of earlier programs alike. A top-level initializer
that reads the name it initializes finds it among the globals. So only names without a distance are
ever reported as undefined.
-/

namespace Lox

-- ---------------------------------------------------------------------------
-- Reads of bound names
-- ---------------------------------------------------------------------------

theorem Reaches.read_bound {n k d : Nat} {p : Part} {m m' : Machine} {name : Token}
    (h : Reaches n p m k (.expression (.variable name (some d))) m') (hm : m.Sound)
    (hp : p.Fits m) : ∃ frame v, (m'.heap.chain m'.current)[d]? = some frame ∧
      m'.heap.ancestor m'.current d = frame ∧ frame ≠ Heap.globalFrame ∧
      m'.heap.own? frame name.lexeme = some v ∧ Run.read name (some d) m' = .done v m' := by
  obtain ⟨-, s, hf, hd, ha⟩ := h.fits hm hp
  have inner : ∀ scope ∈ s.locals.head?, scope.awaits name.lexeme = false := by
    intro scope hs
    have head : s.innermost = scope := by
      rw [Scopes.innermost, List.headD_eq_head?_getD, Option.mem_def.1 hs]
      rfl
    exact head ▸ ha
  obtain ⟨frame, hc, hh, hn, ho⟩ := hf.found hd.symm inner
  obtain ⟨v, hv⟩ := Option.isSome_iff_exists.1 ho
  refine ⟨frame, v, hc, hh, hn, hv, ?_⟩
  rw [Run.read_local, hh, hv]

theorem Expr.Misses.unbound {n k : Nat} {p : Part} {m m' : Machine} {e : RuntimeError} {x : Expr}
    (h : Reaches n p m k (.expression x) m') (hm : m.Sound) (hp : p.Fits m) (hx : x.Misses m' e) :
    ∃ name, e = .undefined name ∧
    (x = .variable name none ∨ ∃ value, x = .assign name value none) := by
  cases hx with
  | @read name depth hr =>
    refine ⟨name, (Run.read_eq_failed hr).2, .inl ?_⟩
    cases depth with
    | none => rfl
    | some d =>
      obtain ⟨_, _, -, -, -, -, found⟩ := h.read_bound hm hp
      rw [found] at hr
      cases hr
  | @assign name value he => exact ⟨name, he, .inr ⟨value, rfl⟩⟩

-- ---------------------------------------------------------------------------
-- Global names
-- ---------------------------------------------------------------------------

def Scopes.GlobalsBound (s : Scopes) (h : Heap) : Prop :=
  ∀ name, s.globals.declares name → (h.own? Heap.globalFrame name).isSome

theorem Scopes.globalsBound_topLevel (m : Machine) :
    (Scopes.topLevel m.globalNames).GlobalsBound m.heap :=
  fun _ hn => Heap.isSome_own?_iff.2 (Scopes.declares_topLevel.1 hn)

theorem Scopes.GlobalsBound.mono {s : Scopes} {h h' : Heap} (hs : s.GlobalsBound h)
    (hg : h.Grows h') : s.GlobalsBound h' :=
  fun name hn => hg.bound _ _ (hs name hn)

theorem Scopes.GlobalsBound.after {s : Scopes} {m m' : Machine} {n : Nat} {t : Stmt}
    {c : Completion} (hs : s.GlobalsBound m.heap) (hl : s.locals = []) (hm : m.Resting)
    (h : t.execute n m = .done c m') : (s.after t).GlobalsBound m'.heap := by
  have hg := (t.execute_grows n).done h
  have kept := hs.mono hg.heap
  unfold Scopes.after
  split
  · next name hd =>
    intro key hk
    rcases (Scopes.declares_introduce hl).1 hk with rfl | hk
    · have bound := Stmt.execute_binds h hd (hm.current ▸ hm.sound.global)
      rwa [hg.current, hm.current] at bound
    · exact kept key hk
  · exact kept

theorem Stmt.listAccepted_append {s : Scopes} {inFunction : Bool} {before after : List Stmt}
    (h : Stmt.ListAccepted s inFunction (before ++ after)) :
    Stmt.ListAccepted s inFunction before ∧
    Stmt.ListAccepted (s.afterAll before) inFunction after := by
  induction before generalizing s with
  | nil => exact ⟨trivial, h⟩
  | cons first rest ih =>
    obtain ⟨hr, ha⟩ := ih h.2
    exact ⟨⟨h.1, hr⟩, ha⟩

theorem Scopes.GlobalsBound.runProgram {s : Scopes} {m m' : Machine} {n : Nat} {ts : List Stmt}
    (hs : s.GlobalsBound m.heap) (hl : s.locals = []) (hm : m.Resting)
    (ha : Stmt.ListAccepted s false ts) (h : Stmt.runProgram n ts m = .done () m') :
    (s.afterAll ts).GlobalsBound m'.heap := by
  induction ts generalizing s m with
  | nil =>
    cases h
    exact hs
  | cons first rest ih =>
    rw [Stmt.runProgram, Run.bind_apply] at h
    cases hf : first.execute n m with
    | done c m₁ =>
      rw [hf] at h
      have resting : m₁.Resting := by
        have one : (Stmt.runProgram n [first] m).Ends (fun _ => Machine.Resting) Machine.Resting :=
          hm.runProgram n hl ⟨ha.1, trivial⟩
        refine one.of_done (a := ()) ?_
        rw [Stmt.runProgram, Run.bind_apply, hf]
        rfl
      exact ih (hs.after hl hm hf) (locals_after_eq_nil hl first) resting ha.2 h
    | failed | unfinished =>
      rw [hf] at h
      cases h

-- ---------------------------------------------------------------------------
-- Initializers that read their own name
-- ---------------------------------------------------------------------------

mutual

/-- The expression itself reads the name; what functions it calls read does not count. -/
def Expr.Reads (name : String) : Expr → Prop
  | .literal _ => False
  | .grouping inner => inner.Reads name
  | .unary _ operand => operand.Reads name
  | .binary left _ right => left.Reads name ∨ right.Reads name
  | .logical left _ right => left.Reads name ∨ right.Reads name
  | .variable token _ => token.lexeme = name
  | .assign _ value _ => value.Reads name
  | .call callee _ arguments => callee.Reads name ∨ Expr.ListReads name arguments

def Expr.ListReads (name : String) : List Expr → Prop
  | [] => False
  | e :: rest => e.Reads name ∨ Expr.ListReads name rest

end

mutual

theorem Expr.not_awaits_of_reads {s : Scopes} {name : String} :
    ∀ e : Expr, e.Reads name → e.Accepted s → s.innermost.awaits name = false
  | .grouping inner, hr, ha => inner.not_awaits_of_reads hr ha
  | .unary _ operand, hr, ha => operand.not_awaits_of_reads hr ha
  | .binary left _ right, hr, ha =>
    hr.elim (left.not_awaits_of_reads · ha.1) (right.not_awaits_of_reads · ha.2)
  | .logical left _ right, hr, ha =>
    hr.elim (left.not_awaits_of_reads · ha.1) (right.not_awaits_of_reads · ha.2)
  | .variable _ _, hr, ha => hr ▸ ha.2
  | .assign _ value _, hr, ha => value.not_awaits_of_reads hr ha.1
  | .call callee _ arguments, hr, ha =>
    hr.elim (callee.not_awaits_of_reads · ha.1) (Expr.not_awaits_of_listReads arguments · ha.2)

theorem Expr.not_awaits_of_listReads {s : Scopes} {name : String} :
    ∀ es : List Expr, Expr.ListReads name es → Expr.ListAccepted s es →
      s.innermost.awaits name = false
  | e :: rest, hr, ha =>
    hr.elim (e.not_awaits_of_reads · ha.1) (Expr.not_awaits_of_listReads rest · ha.2)

end

theorem Expr.declared_of_reads {s : Scopes} (hl : s.locals = []) {name : String} {e : Expr}
    (hr : e.Reads name) (ha : e.Accepted (s.declare name)) : s.globals.declares name := by
  have quiet := e.not_awaits_of_reads hr ha
  have innermost : (s.declare name).innermost = (s.declare name).globals := by
    simp [Scopes.innermost, Scopes.locals_declare_eq_nil hl]
  rw [innermost, Scopes.declare] at quiet
  split at quiet
  · next known => simpa [hl] using known
  · simp [Scopes.mark, hl, Scope.awaits] at quiet

theorem Enters.grows {n k : Nat} {p q : Part} {m m' : Machine} (h : Enters n p m k q m') :
    m.heap.Grows m'.heap := by
  cases h with
  | binaryRight he | logicalRight he _ | arguments he | otherArguments he | consequent he _
  | alternative he _ | loopBody he _ => exact ((Expr.evaluate_grows _ _).done he).heap
  | call hc hv _ =>
    exact ((Expr.evaluate_grows _ _).done hc).heap.trans
      ((Expr.evaluateList_grows _ _).done hv).heap
  | loopAgain hc _ hb =>
    exact ((Expr.evaluate_grows _ _).done hc).heap.trans ((Stmt.execute_grows _ _).done hb).heap
  | body | block => exact .push ..
  | rest ht | programRest ht => exact ((Stmt.execute_grows _ _).done ht).heap
  | _ => exact .refl _

theorem Reaches.grows {n k : Nat} {p q : Part} {m m' : Machine} (h : Reaches n p m k q m') :
    m.heap.Grows m'.heap := by
  induction h with
  | here => exact .refl _
  | step he _ ih => exact he.grows.trans ih

/-- While a top-level declaration runs whose initializer reads the declared name, that name is bound
among the globals. -/
theorem Reaches.own_initializer {n k : Nat} {m m' : Machine} {s : Scopes} {name : Token} {e : Expr}
    {q : Part} (hs : s.GlobalsBound m.heap) (hl : s.locals = [])
    (ha : Stmt.Accepted s false (.variable name (some e))) (hr : e.Reads name.lexeme)
    (h : Reaches n (.statement (.variable name (some e))) m k q m') {token : Token}
    (ht : token.lexeme = name.lexeme) : ∃ v, Run.read token none m' = .done v m' := by
  have bound := (hs.mono h.grows) _ (e.declared_of_reads hl hr (ha.2 e rfl))
  obtain ⟨v, hv⟩ := Option.isSome_iff_exists.1 bound
  exact ⟨v, by rw [Run.read_global, ht, hv]⟩

-- ---------------------------------------------------------------------------
-- Programs in a session
-- ---------------------------------------------------------------------------

/-- In a reachable session, every read of a name with a distance finds it in the frame that many
links out, which is not the global one; a top-level initializer that reads its own name finds it;
and what is reported as undefined is the use of a name without a distance. -/
theorem bound_reads_never_miss {s : Session} (hs : s.Reachable) {tokens : List Token}
    {reading : Grammar.Reading} (hp : Grammar.parse tokens = .ok reading) {bound : Bound}
    (hb : Bound.ofStatements s.machine.globalNames reading.statements = bound)
    (he : bound.errors = []) (steps : Nat) :
    (∀ k name d m,
      Reaches steps (.program bound.statements) s.machine k
      (.expression (.variable name (some d))) m →
      ∃ frame v, (m.heap.chain m.current)[d]? = some frame ∧ m.heap.ancestor m.current d = frame ∧
        frame ≠ Heap.globalFrame ∧ m.heap.own? frame name.lexeme = some v ∧
        Run.read name (some d) m = .done v m) ∧
    (∀ before name e after m k q m',
      bound.statements = before ++ .variable name (some e) :: after →
      Stmt.runProgram steps before s.machine = .done () m → e.Reads name.lexeme →
      Reaches steps (.statement (.variable name (some e))) m k q m' →
      ∀ token, token.lexeme = name.lexeme → ∃ v, Run.read token none m' = .done v m') ∧
    (∀ e m, Stmt.runProgram steps bound.statements s.machine = .failed e m → e.IsUndefined →
      ∃ k x m' name, Reaches steps (.program bound.statements) s.machine k (.expression x) m' ∧
        e = .undefined name ∧
        (x = .variable name none ∨ ∃ value, x = .assign name value none)) := by
  subst hb
  have rests := hs.resting
  have accepted := accepted_of_parse hp he
  have fits : (Part.program (Bound.ofStatements s.machine.globalNames
      reading.statements).statements).Fits s.machine :=
    ⟨Scopes.topLevel s.machine.globalNames, rests.fits, by simp [Settled, Scopes.topLevel],
      accepted⟩
  refine ⟨fun k name d m h => h.read_bound rests.sound fits, ?_, ?_⟩
  · intro before name e after m k q m' split hrun hr h token ht
    rw [split] at accepted
    obtain ⟨first, second⟩ := Stmt.listAccepted_append accepted
    have globals := (Scopes.globalsBound_topLevel s.machine).runProgram rfl rests first hrun
    exact h.own_initializer globals (Scopes.locals_afterAll_eq_nil rfl before) second.1 hr ht
  · intro e m hf hu
    obtain ⟨k, x, m', hreach, hx⟩ := undefined_reached (p := .program _) ⟨m, hf⟩ hu
    obtain ⟨name, hn, hx⟩ := hx.unbound hreach rests.sound fits
    exact ⟨k, x, m', name, hreach, hn, hx⟩

def printsLocal : List Token :=
  [⟨.leftBrace, "\x7b", none, 1⟩, ⟨.kwVar, "var", none, 1⟩, ⟨.identifier, "a", none, 1⟩,
    ⟨.semicolon, ";", none, 1⟩, ⟨.kwPrint, "print", none, 2⟩, ⟨.identifier, "a", none, 2⟩,
    ⟨.semicolon, ";", none, 2⟩, ⟨.rightBrace, "\x7d", none, 2⟩, Token.atEnd 2]

theorem bound_reads_never_miss_block :
    let m := Machine.initial (.buffer "") fun _ => 0
    let name : Token := ⟨.identifier, "a", none, 2⟩
    let program := [Stmt.block [.variable ⟨.identifier, "a", none, 1⟩ none,
      .print (.variable name (some 0))]]
    ∃ k m', Reaches 5 (.program program) m k (.expression (.variable name (some 0))) m' ∧
      ∃ frame v, (m'.heap.chain m'.current)[0]? = some frame ∧
        m'.heap.ancestor m'.current 0 = frame ∧ frame ≠ Heap.globalFrame ∧
        m'.heap.own? frame "a" = some v ∧ Run.read name (some 0) m' = .done v m' := by
  intro m name program
  have reached :
      ∃ m', Reaches 5 (.program program) m 1 (.expression (.variable name (some 0))) m' := by
    apply Exists.intro
    apply Reaches.step .programFirst
    apply Reaches.step .block
    apply Reaches.step (.rest rfl)
    apply Reaches.step .first
    exact .step .printed .here
  obtain ⟨m', hm'⟩ := reached
  have parsed : ∃ reading, Grammar.parse printsLocal = .ok reading ∧
      (Bound.ofStatements ["clock"] reading.statements).statements = program ∧
      (Bound.ofStatements ["clock"] reading.statements).errors = [] := ⟨_, rfl, rfl, rfl⟩
  obtain ⟨reading, hp, hs, he⟩ := parsed
  have session : (Session.start (.buffer "") fun _ => 0).Reachable := .start _ _
  exact ⟨1, m', hm', (bound_reads_never_miss session hp rfl he 5).1 1 name 0 m' (hs ▸ hm')⟩

end Lox
