import Lox.Proofs.Lexical.Following
import Lox.Proofs.Session.Reachable

/-!
# Frames and distances keep lexical scope

An accepted program runs on a machine as it runs over storage cells: with the same steps it comes to
the same end, prints the same and leaves the same globals. The runs go in lockstep, part by part.
-/

namespace Lox.Lexical

variable {α β : Type}

-- ---------------------------------------------------------------------------
-- Runs
-- ---------------------------------------------------------------------------

inductive SameCompletion (h : Heap) (places : Places) :
    Completion → Completion Environment → Prop
  | normal : SameCompletion h places .normal .normal
  | returned {v w} : Same h places v w → SameCompletion h places (.returned v) (.returned w)

theorem SameCompletion.value {h : Heap} {places : Places} {c : Completion}
    {c' : Completion Environment} (hc : SameCompletion h places c c') :
    Same h places c.value c'.value := by
  cases hc with
  | normal => exact .nil
  | returned hv => exact hv

def SameValues (h : Heap) (places : Places) : List Value → List (Value Environment) → Prop :=
  List.Forall₂ (Same h places)

theorem Follows.check {bound : Nat} {places : Places} {m : Machine} {s : Store}
    (hr : Related places m s) (line : Nat) {r : Except RuntimeCause Value}
    {r' : Except RuntimeCause (Value Environment)} (ha : SameAnswer m.heap places r r') :
    Follows bound places Same m s (Lox.Run.check line r) (Run.check line r') := by
  cases ha with
  | ok hv => exact .pure hr hv
  | error cause => exact .failed rfl rfl hr

theorem Follows.readClock {bound : Nat} {places : Places} {m : Machine} {s : Store}
    (hr : Related places m s) : Follows bound places Same m s Lox.Run.readClock Run.readClock := by
  refine .done rfl rfl ⟨.refl .., Lox.Run.Grows.readClock.done rfl, ?_⟩ ?_
  · exact hr.withSupplies rfl rfl rfl hr.output hr.nextIdentity (by rw [hr.clock])
  · rw [hr.clock]
    exact .number _

theorem Follows.printLine {bound : Nat} {places : Places} {m : Machine} {s : Store}
    (hr : Related places m s) {line line' : String} (hl : line = line') :
    Follows bound places Nothing m s (Lox.Run.printLine line) (Run.printLine line') := by
  subst hl
  refine .done rfl rfl ⟨.refl .., (Lox.Run.Grows.printLine line).done rfl, ?_⟩ trivial
  exact hr.withSupplies rfl rfl rfl (congrArg (Output.printLine · line) hr.output) hr.nextIdentity
    hr.clock

theorem Follows.ite {bound : Nat} {places : Places} {R : Heap → Places → α → β → Prop} {m : Machine}
    {s : Store} {v : Value} {w : Value Environment} {x x' : Lox.Run α} {y y' : Run β}
    (hv : v.truthy = w.truthy) (hx : Follows bound places R m s x y)
    (hx' : Follows bound places R m s x' y') :
    Follows bound places R m s (if v.truthy then x else x') (if w.truthy then y else y') := by
  rw [hv]
  split
  · exact hx
  · exact hx'

mutual

theorem evaluate_follows : ∀ (n : Nat) (e : Expr) {bound places m s scopes env},
    Stands bound places m s scopes env → e.Accepted scopes →
    Follows bound places Same m s (e.evaluate n) (evaluate n env e)
  | 0, _ => fun _ _ => trivial
  | _ + 1, .literal value => fun h _ => .pure h.related (.ofConstant value)
  | n + 1, .grouping inner => fun h ha => evaluate_follows n inner h ha
  | n + 1, .unary operator operand => fun h ha => by
    refine .bind (evaluate_follows n operand h ha) (Nat.le_refl _) ?_
    intro v w places' m' s' ho hv
    exact .check ho.related _ (hv.unary _)
  | n + 1, .binary left operator right => fun h ha => by
    refine .bind (evaluate_follows n left h ha.1) (Nat.le_refl _) ?_
    intro v w places₁ m₁ s₁ ho₁ hv
    refine .bind (evaluate_follows n right (ho₁.stands h) ha.2) (Nat.le_refl _) ?_
    intro v' w' places₂ m₂ s₂ ho₂ hv'
    exact .check ho₂.related _ ((ho₂.same hv).binary _ hv')
  | n + 1, .logical left operator right => fun h ha => by
    refine .bind (evaluate_follows n left h ha.1) (Nat.le_refl _) ?_
    intro v w places' m' s' ho hv
    have whole := evaluate_follows n right (ho.stands h) ha.2
    generalize operator.kind = kind
    cases kind with
    | kwOr => exact .ite hv.truthy (.pure ho.related hv) whole
    | kwAnd => exact .ite hv.truthy whole (.pure ho.related hv)
    | _ => exact .failed rfl rfl ho.related
  | _ + 1, .variable name depth => fun h ha => by
    obtain ⟨rfl, -⟩ := ha
    exact h.read name
  | n + 1, .assign name value depth => fun h ha => by
    obtain ⟨hvalue, rfl⟩ := ha
    refine .bind (evaluate_follows n value h hvalue) (Nat.le_refl _) ?_
    intro v w places₁ m₁ s₁ ho₁ hv
    refine .bind ((ho₁.stands h).assign name hv) (Nat.le_refl _) ?_
    intro _ _ places₂ m₂ s₂ ho₂ _
    exact .pure ho₂.related (ho₂.same hv)
  | n + 1, .call callee paren arguments => fun h ha => by
    refine .bind (evaluate_follows n callee h ha.1) (Nat.le_refl _) ?_
    intro f g places₁ m₁ s₁ ho₁ hf
    refine .bind (evaluateList_follows n arguments (ho₁.stands h) ha.2) (Nat.le_refl _) ?_
    intro vs ws places₂ m₂ s₂ ho₂ hvs
    have small := (ho₂.stands (ho₁.stands h)).small
    cases ho₂.same hf with
    | @callable identity c c' hc =>
      have arity : (⟨identity, c⟩ : Callable).arity =
          (⟨identity, c'⟩ : Callable Environment).arity := by
        cases hc <;> rfl
      dsimp only
      rw [← hvs.length_eq, arity]
      split
      · next hl => exact call_follows n ho₂.related small hc hvs (hl.trans arity.symm)
      · exact .failed rfl rfl ho₂.related
    | _ => exact .failed rfl rfl ho₂.related

theorem evaluateList_follows : ∀ (n : Nat) (es : List Expr) {bound places m s scopes env},
    Stands bound places m s scopes env → Expr.ListAccepted scopes es →
    Follows bound places SameValues m s (Expr.evaluateList n es) (evaluateList n env es)
  | 0, _ => fun _ _ => trivial
  | _ + 1, [] => fun h _ => .pure h.related .nil
  | n + 1, e :: rest => fun h ha => by
    refine .bind (evaluate_follows n e h ha.1) (Nat.le_refl _) ?_
    intro v w places₁ m₁ s₁ ho₁ hv
    refine .bind (evaluateList_follows n rest (ho₁.stands h) ha.2) (Nat.le_refl _) ?_
    intro vs ws places₂ m₂ s₂ ho₂ hvs
    exact .pure ho₂.related (.cons (ho₂.same hv) hvs)

theorem call_follows : ∀ (n : Nat) {bound places m s} {identity : Nat} {c : Callee}
    {c' : Callee Environment} {arguments : List Value} {arguments' : List (Value Environment)},
    Related places m s → bound ≤ m.heap.frames.size → SameCallee m.heap places c c' →
    SameValues m.heap places arguments arguments' →
    arguments.length = (⟨identity, c⟩ : Callable).arity →
    Follows bound places Same m s (Callable.call n ⟨identity, c⟩ arguments)
      (call n ⟨identity, c'⟩ arguments')
  | 0 => fun _ _ _ _ _ => trivial
  | n + 1 => fun hr hb hc hvs hl => by
    cases hc with
    | clock => exact .readClock hr
    | closure sees accepted =>
      obtain ⟨env', s', places', bound, he, h⟩ := hr.enterCall hb sees accepted hvs hl
      have body := (executeList_follows n _ h hb accepted.2).inNewFrame he
      have whole := body.bind (S := Same) (f := fun c => pure c.value) (g := fun c => pure c.value)
        (Nat.le_refl _) fun _ _ _ _ _ ho hc => .pure ho.related hc.value
      unfold Follows at whole ⊢
      rw [Callable.call, call]
      dsimp only
      rw [Run.bind_apply, bound]
      exact whole

theorem execute_follows : ∀ (n : Nat) (t : Stmt) {bound places m s env} {scopes : Scopes}
    {inFunction : Bool},
    Stands bound places m s (scopes.during t) env → t.Accepted scopes inFunction →
    Follows bound places SameCompletion m s (t.execute n) (execute n env t)
  | 0, _ => fun _ _ => trivial
  | n + 1, .expression value => fun h ha => by
    refine .bind (evaluate_follows n value h ha) (Nat.le_refl _) ?_
    intro _ _ places' m' s' ho _
    exact .pure ho.related .normal
  | n + 1, .print value => fun h ha => by
    refine .bind (evaluate_follows n value h ha) (Nat.le_refl _) ?_
    intro v w places₁ m₁ s₁ ho₁ hv
    refine .bind (R := Nothing) (.printLine ho₁.related hv.text) (Nat.le_refl _) ?_
    intro _ _ places₂ m₂ s₂ ho₂ _
    exact .pure ho₂.related .normal
  | _ + 1, .variable name none => fun h _ => by
    refine .bind (Stands.define h .nil) (Nat.le_refl _) ?_
    intro _ _ places' m' s' ho _
    exact .pure ho.related .normal
  | n + 1, .variable name (some initializer) => fun h ha => by
    refine .bind (evaluate_follows n initializer h (ha.2 _ rfl)) (Nat.le_refl _) ?_
    intro v w places₁ m₁ s₁ ho₁ hv
    refine .bind (Stands.define (ho₁.stands h) hv) (Nat.le_refl _) ?_
    intro _ _ places₂ m₂ s₂ ho₂ _
    exact .pure ho₂.related .normal
  | n + 1, .block body => fun h ha =>
    (executeList_follows n body (h.related.inBlock h.small h.sees) h.small ha).inNewFrame (.refl ..)
  | n + 1, .branch condition consequent none => fun h ha => by
    refine .bind (evaluate_follows n condition h ha.1) (Nat.le_refl _) ?_
    intro v w places' m' s' ho hv
    have h' := ho.stands h
    exact .ite hv.truthy (execute_follows n consequent (h'.during ha.2.1) ha.2.2)
      (.pure ho.related .normal)
  | n + 1, .branch condition consequent (some alternative) => fun h ha => by
    refine .bind (evaluate_follows n condition h ha.1) (Nat.le_refl _) ?_
    intro v w places' m' s' ho hv
    have h' := ho.stands h
    exact .ite hv.truthy (execute_follows n consequent (h'.during ha.2.1.1) ha.2.1.2)
      (execute_follows n alternative (h'.during ha.2.2.1) ha.2.2.2)
  | n + 1, .loop condition body => fun h ha => by
    refine .bind (evaluate_follows n condition h ha.1) (Nat.le_refl _) ?_
    intro v w places₁ m₁ s₁ ho₁ hv
    have h₁ := ho₁.stands h
    refine .ite hv.truthy ?_ (.pure ho₁.related .normal)
    refine .bind (execute_follows n body (h₁.during ha.2.1) ha.2.2) (Nat.le_refl _) ?_
    intro c c' places₂ m₂ s₂ ho₂ hc
    cases hc with
    | normal => exact execute_follows n (.loop condition body) (ho₂.stands h₁) ha
    | returned hv => exact .pure ho₂.related (.returned hv)
  | _ + 1, .function name parameters body => fun h ha => by
    refine .bind (Stands.makeClosure h ha.2) (Nat.le_refl _) ?_
    intro v w places₁ m₁ s₁ ho₁ hv
    refine .bind (Stands.define (ho₁.stands h) hv) (Nat.le_refl _) ?_
    intro _ _ places₂ m₂ s₂ ho₂ _
    exact .pure ho₂.related .normal
  | _ + 1, .return _ none => fun h _ => .pure h.related (.returned .nil)
  | n + 1, .return _ (some value) => fun h ha => by
    refine .bind (evaluate_follows n value h (ha.2 _ rfl)) (Nat.le_refl _) ?_
    intro v w places' m' s' ho hv
    exact .pure ho.related (.returned hv)

theorem executeList_follows : ∀ (n : Nat) (ts : List Stmt) {bound places m s env} {scopes : Scopes}
    {inFunction : Bool},
    InBlock bound places m s scopes env → bound ≤ m.current →
    Stmt.ListAccepted scopes inFunction ts →
    Follows bound places SameCompletion m s (Stmt.executeList n ts) (executeList n env ts)
  | 0, _ => fun _ _ _ => trivial
  | _ + 1, [] => fun h _ _ => .pure h.related .normal
  | n + 1, first :: rest => fun h hb ha => by
    obtain ⟨env', s', places', declared, ho, h'⟩ := h.declareFor hb ha.1
    have statement := execute_follows n first ⟨h'.related, h'.sees, Nat.le_refl _⟩ ha.1
    unfold Follows
    rw [executeList, Run.bind_apply, declared]
    refine Follows.extend (.bind statement h.small ?_) ho.places
    intro c c' places₁ m₁ s₁ ho₁ hc
    cases hc with
    | normal =>
      have current := ho₁.grows.current
      exact executeList_follows n rest (ho₁.inBlock h').after (current ▸ hb) ha.2
    | returned hv => exact .pure ho₁.related (.returned hv)

end

theorem runProgram_follows (n : Nat) {bound : Nat} (ts : List Stmt) {places : Places} {m : Machine}
    {s : Store} {scopes : Scopes} (hl : scopes.locals = [])
    (h : Stands bound places m s scopes []) (ha : Stmt.ListAccepted scopes false ts) :
    Follows bound places Nothing m s (Stmt.runProgram n ts) (runProgram n ts) := by
  induction ts generalizing places m s scopes with
  | nil => exact .pure h.related trivial
  | cons first rest ih =>
    have atTop {scopes' : Scopes} {places m s} (hl' : scopes'.locals = [])
        (h : Stands bound places m s scopes []) : Stands bound places m s scopes' [] :=
      ⟨h.related, hl' ▸ hl ▸ h.sees, h.small⟩
    have during : (scopes.during first).locals = [] := by
      unfold Scopes.during
      split
      · rw [Scopes.locals_declare, hl]
        rfl
      · exact hl
    have after := Scopes.locals_after_eq_nil hl first
    refine .bind (execute_follows n first (atTop during h) ha.1) (Nat.le_refl _) ?_
    intro _ _ places' m' s' ho _
    exact ih after (atTop after (ho.stands h)) ha.2

-- ---------------------------------------------------------------------------
-- Sessions
-- ---------------------------------------------------------------------------

/-- A value without what its functions captured. -/
def bare {κ : Type} : Value κ → Value Unit
  | .nil => .nil
  | .boolean value => .boolean value
  | .number value => .number value
  | .string text => .string text
  | .callable ⟨identity, .clock⟩ => .callable ⟨identity, .clock⟩
  | .callable ⟨identity, .closure function _⟩ => .callable ⟨identity, .closure function ()⟩

def bareBindings {κ : Type} (bindings : Bindings κ) : List (String × Value Unit) :=
  bindings.map fun (name, value) => (name, bare value)

theorem Same.bare {h : Heap} {places : Places} {v : Value} {w : Value Environment}
    (hs : Same h places v w) : bare v = bare w := by
  cases hs with
  | callable hc => cases hc <;> rfl
  | _ => rfl

theorem Related.bareBindings {places : Places} {m : Machine} {s : Store} (hr : Related places m s) :
    bareBindings (m.heap.bindings Heap.globalFrame) = bareBindings s.globals := by
  refine List.forall₂_eq_eq_eq ▸ List.forall₂_map_left_iff.2 (List.forall₂_map_right_iff.2 ?_)
  refine hr.globals.imp ?_
  rintro ⟨name, v⟩ ⟨name', w⟩ ⟨rfl, hv⟩
  exact congrArg (Prod.mk name) hv.bare

theorem Related.globalNames {places : Places} {m : Machine} {s : Store} (hr : Related places m s) :
    m.globalNames = s.globalNames := by
  have names := congrArg (List.map Prod.fst) hr.bareBindings
  simpa [Lexical.bareBindings, Machine.globalNames, Heap.names, Store.globalNames,
    Function.comp_def] using names

/-- A session and a store between two programs. -/
def Paired (s : Session) (r : Store) : Prop :=
  s.machine.current = Heap.globalFrame ∧ ∃ places, Related places s.machine r

theorem Paired.start (output : Output) (reading : Nat → Float) :
    Paired (.start output reading) (.initial output reading) := by
  refine ⟨rfl, [], rfl, .nil, by simp, ?_, by simp, ?_, Nat.one_pos, rfl, rfl, rfl⟩
  · intro frame name hf hb
    cases frame with
    | zero => exact absurd rfl hf
    | succ frame =>
      rw [Heap.own?_of_size_le (Nat.le_add_left 1 frame)] at hb
      cases hb
  · exact .cons ⟨rfl, .callable .clock⟩ .nil

theorem Paired.execute {s : Session} {r : Store} (h : Paired s r) (steps : Nat) {ts : List Stmt}
    {globals : List String} (ha : Stmt.ListAccepted (Scopes.topLevel globals) false ts) :
    (s.execute steps ts).1 = (r.execute steps ts).1 ∧
      Paired (s.execute steps ts).2 (r.execute steps ts).2 := by
  obtain ⟨current, places, related⟩ := h
  have stands : Stands 0 places s.machine r (Scopes.topLevel globals) [] :=
    ⟨related, current ▸ .topLevel related.global_frame places, Nat.zero_le _⟩
  have follows := runProgram_follows steps ts rfl stands ha
  unfold Session.execute Store.execute
  unfold Follows at follows
  revert follows
  cases Stmt.runProgram steps ts s.machine <;> cases runProgram steps ts r
  case done.done =>
    rintro ⟨places', ho, -⟩
    exact ⟨rfl, ho.grows.current.trans current, places', ho.related⟩
  case failed.failed =>
    rintro ⟨rfl, places', ho⟩
    exact ⟨rfl, ho.grows.current.trans current, places', ho.related⟩
  case unfinished.unfinished => exact fun _ => ⟨rfl, current, places, related⟩
  all_goals exact False.elim

theorem Paired.run {s : Session} {r : Store} (h : Paired s r) (steps : Nat) (source : String) :
    Paired (s.run steps source).2 (r.run steps source).2 := by
  obtain ⟨-, places, related⟩ := id h
  unfold Session.run Store.run
  rw [related.globalNames]
  cases compiled : compile r.globalNames source with
  | ok statements =>
    obtain ⟨reading, hp, -, -, hb, rfl⟩ := compile_eq_ok compiled
    exact (h.execute steps (accepted_of_parse hp hb)).2
  | error reason => exact h

theorem Paired.withOutput {s : Session} {r : Store} (h : Paired s r) (change : Output → Output) :
    Paired { s with machine := { s.machine with output := change s.machine.output } }
      { r with output := change r.output } := by
  obtain ⟨current, places, hr⟩ := h
  exact ⟨current, places, hr.withSupplies rfl rfl rfl (congrArg change hr.output) hr.nextIdentity
    hr.clock⟩

theorem Alongside.paired {s : Session} {r : Store} (h : Alongside s r) : Paired s r := by
  induction h with
  | start output reading => exact .start output reading
  | run steps source _ ih => exact ih.run steps source
  | takeOutput _ ih => exact ih.withOutput fun o => o.take.2
  | write text _ ih => exact ih.withOutput fun o => o.write text

theorem exists_alongside {s : Session} (h : s.Reachable) : ∃ r, Alongside s r := by
  induction h with
  | start output reading => exact ⟨_, .start output reading⟩
  | run steps source _ ih =>
    obtain ⟨r, hr⟩ := ih
    exact ⟨_, hr.run steps source⟩
  | takeOutput _ ih =>
    obtain ⟨r, hr⟩ := ih
    exact ⟨_, hr.takeOutput⟩
  | write text _ ih =>
    obtain ⟨r, hr⟩ := ih
    exact ⟨_, hr.write text⟩

/-- In every reachable session, and beside it in every store that went through the same requests, a
program that was read and bound without error comes to the same end by frames and distances and by
storage cells: the same verdict, the same output, and the same globals. -/
theorem frames_keep_lexical_scope {s : Session} (hs : s.Reachable) :
    (∃ r, Alongside s r) ∧
    ∀ r, Alongside s r → ∀ tokens reading, Grammar.parse tokens = .ok reading →
      ∀ bound, Bound.ofStatements s.machine.globalNames reading.statements = bound →
      bound.errors = [] → ∀ steps,
        (s.execute steps bound.statements).1 = (r.execute steps bound.statements).1 ∧
        (s.execute steps bound.statements).2.machine.output =
          (r.execute steps bound.statements).2.output ∧
        bareBindings ((s.execute steps bound.statements).2.machine.heap.bindings Heap.globalFrame) =
          bareBindings (r.execute steps bound.statements).2.globals := by
  refine ⟨exists_alongside hs, ?_⟩
  rintro r hr tokens reading hp _ rfl he steps
  obtain ⟨verdict, -, places, related⟩ := hr.paired.execute steps (accepted_of_parse hp he)
  exact ⟨verdict, related.output, related.bareBindings⟩

/-- A block in which a function reads `a` that is declared in the block only after it. -/
def capturesEarly : List Token :=
  [⟨.kwVar, "var", none, 1⟩, ⟨.identifier, "a", none, 1⟩, ⟨.equal, "=", none, 1⟩,
    ⟨.kwTrue, "true", none, 1⟩, ⟨.semicolon, ";", none, 1⟩, ⟨.leftBrace, "\x7b", none, 2⟩,
    ⟨.kwFun, "fun", none, 2⟩, ⟨.identifier, "f", none, 2⟩, ⟨.leftParen, "(", none, 2⟩,
    ⟨.rightParen, ")", none, 2⟩, ⟨.leftBrace, "\x7b", none, 2⟩, ⟨.kwPrint, "print", none, 2⟩,
    ⟨.identifier, "a", none, 2⟩, ⟨.semicolon, ";", none, 2⟩, ⟨.rightBrace, "\x7d", none, 2⟩,
    ⟨.kwVar, "var", none, 3⟩, ⟨.identifier, "a", none, 3⟩, ⟨.semicolon, ";", none, 3⟩,
    ⟨.identifier, "f", none, 3⟩, ⟨.leftParen, "(", none, 3⟩, ⟨.rightParen, ")", none, 3⟩,
    ⟨.semicolon, ";", none, 3⟩, ⟨.rightBrace, "\x7d", none, 3⟩, Token.atEnd 3]

/-- The function prints the global it was declared under, by either account. -/
theorem frames_keep_lexical_scope_capture :
    let s := Session.start (.buffer "") fun _ => 0
    let r := Store.initial (.buffer "") fun _ => 0
    ∃ reading, Grammar.parse capturesEarly = .ok reading ∧
      let bound := Bound.ofStatements ["clock"] reading.statements
      bound.errors = [] ∧
      (s.execute 20 bound.statements).1 = .success ∧
      (r.execute 20 bound.statements).1 = .success ∧
      (s.execute 20 bound.statements).2.machine.output =
        (r.execute 20 bound.statements).2.output ∧
      (r.execute 20 bound.statements).2.output.text = "true\n" := by
  intro s r
  have parsed : ∃ reading, Grammar.parse capturesEarly = .ok reading ∧
      (Bound.ofStatements ["clock"] reading.statements).errors = [] ∧
      (r.execute 20 (Bound.ofStatements ["clock"] reading.statements).statements).1 = .success ∧
      (r.execute 20 (Bound.ofStatements ["clock"] reading.statements).statements).2.output.text =
        "true\n" :=
    ⟨_, rfl, rfl, rfl, by decide⟩
  obtain ⟨reading, hp, he, success, printed⟩ := parsed
  have agree := (frames_keep_lexical_scope (.start _ _)).2 r (.start _ _) _ reading hp _ rfl he 20
  exact ⟨reading, hp, he, agree.1.trans success, success, agree.2.1, printed⟩

end Lox.Lexical
