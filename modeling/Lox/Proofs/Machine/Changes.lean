import Mathlib.Logic.Relation
import Lox.Proofs.Machine.Points

/-!
# What changes the heap

Only assignments, declarations, blocks and calls change the heap by themselves (`Writes`). From the
heap a run starts with to the one it leaves, however it ends, every change is one that a part makes
at a point of the run (`runProgram_changes`).
-/

namespace Lox

variable {α β : Type} {W : Heap → Heap → Prop}

/-- The part, run with some steps from the machine, changes the first heap to the second one
itself. -/
inductive Writes : Nat → Part → Machine → Heap → Heap → Prop
  | assign {n name value depth m v m' m''} :
    value.evaluate n m = .done v m' → Run.assign name depth v m' = .done () m'' →
    Writes (n + 1) (.expression (.assign name value depth)) m m'.heap m''.heap
  | declaration {n name m} :
    Writes (n + 1) (.statement (.variable name none)) m
      m.heap (m.heap.define m.current name.lexeme .nil)
  | definition {n name initializer m v m'} :
    initializer.evaluate n m = .done v m' →
    Writes (n + 1) (.statement (.variable name (some initializer))) m
      m'.heap (m'.heap.define m'.current name.lexeme v)
  | function {n name parameters body m} :
    Writes (n + 1) (.statement (.function name parameters body)) m
      m.heap (m.heap.define m.current name.lexeme (.callable
        { identity := m.nextIdentity, callee := .closure ⟨name, parameters, body⟩ m.current }))
  | block {n body m} :
    Writes (n + 1) (.statement (.block body)) m m.heap (m.heap.push m.current []).2
  | call {n c values m function frame} :
    c.callee = .closure function frame →
    Writes (n + 1) (.call c values) m m.heap (m.heap.push frame (function.bindings values)).2

def Run.Changes (W : Heap → Heap → Prop) (x : Run α) (m : Machine) : Prop :=
  (x m).Ends (fun _ m' => Relation.ReflTransGen W m.heap m'.heap)
    (fun m' => Relation.ReflTransGen W m.heap m'.heap)

namespace Run

variable {m : Machine}

theorem Changes.pure (a : α) : Changes W (Pure.pure a : Run α) m :=
  .refl

theorem Changes.fail (line : Nat) (cause : RuntimeCause) : Changes W (fail line cause : Run α) m :=
  .refl

theorem Changes.unfinished : Changes W (unfinished : Run α) m :=
  trivial

theorem Changes.bind {x : Run α} {f : α → Run β} (hx : x.Changes W m)
    (hf : ∀ a m', x m = .done a m' → (f a).Changes W m') : (x >>= f).Changes W m := by
  refine Outcome.Ends.bind hx ?_
  intro a m' h changes
  exact (hf a m' h).mono (fun _ _ => changes.trans) (fun _ => changes.trans)

theorem Changes.check (line : Nat) (r : Except RuntimeCause Value) :
    (check line r).Changes W m := by
  cases r with
  | ok v => exact .pure v
  | error cause => exact .fail line cause

theorem Changes.read (name : Token) (depth : Option Nat) : (read name depth).Changes W m := by
  unfold Changes
  rcases read_cases name m depth with ⟨_, value, -, read⟩ | missed
  · rw [read]
    exact .refl
  · rw [missed]
    exact .refl

theorem Changes.assign {name : Token} {depth : Option Nat} {v : Value}
    (h : ∀ m', assign name depth v m = .done () m' → W m.heap m'.heap) :
    (assign name depth v).Changes W m := by
  unfold Changes
  rcases assign_cases name m depth v with ⟨frame, written⟩ | ⟨-, missed⟩
  · rw [written]
    exact .single (h _ written)
  · rw [missed]
    exact .refl

theorem Changes.define {name : String} {v : Value}
    (h : W m.heap (m.heap.define m.current name v)) : (define name v).Changes W m :=
  .single h

theorem Changes.inNewFrame {body : Run α} {enclosing : Nat} {own : Bindings}
    (h : W m.heap (m.heap.push enclosing own).2) (hb : body.Changes W (m.entered enclosing own)) :
    (inNewFrame enclosing own body).Changes W m := by
  unfold Changes
  rw [inNewFrame_apply]
  exact hb.onMachine (fun _ _ => .head h) (fun _ => .head h)

end Run

open Run (Changes)

def Part.Covers (n : Nat) (p : Part) (m : Machine) (W : Heap → Heap → Prop) : Prop :=
  ∀ k q m' h h', Reaches n p m k q m' → Writes k q m' h h' → W h h'

theorem Part.Covers.here {n : Nat} {p : Part} {m : Machine} (hp : p.Covers n m W) {h h' : Heap}
    (writes : Writes n p m h h') : W h h' :=
  hp _ _ _ _ _ .here writes

theorem Part.Covers.enter {n k : Nat} {p q : Part} {m m' : Machine} (hp : p.Covers n m W)
    (entered : Enters n p m k q m') : q.Covers k m' W :=
  fun _ _ _ _ _ reached => hp _ _ _ _ _ (.step entered reached)

mutual

theorem Expr.evaluate_changes : ∀ (n : Nat) (e : Expr) {m : Machine},
    (Part.expression e).Covers n m W → (e.evaluate n).Changes W m
  | 0, _, _, _ => .unfinished
  | _ + 1, .literal _, _, _ => .pure _
  | n + 1, .grouping inner, _, hw => inner.evaluate_changes n (hw.enter .grouping)
  | n + 1, .unary _ operand, _, hw => by
    refine .bind (operand.evaluate_changes n (hw.enter .operand)) fun a m' _ => ?_
    exact .check _ _
  | n + 1, .binary left _ right, _, hw => by
    refine .bind (left.evaluate_changes n (hw.enter .binaryLeft)) fun a m₁ ha => ?_
    refine .bind (right.evaluate_changes n (hw.enter (.binaryRight ha))) fun b m₂ _ => ?_
    exact .check _ _
  | n + 1, .logical left operator right, m, hw => by
    refine .bind (left.evaluate_changes n (hw.enter .logicalLeft)) fun a m' ha => ?_
    split
    · next kind =>
      split
      · exact .pure a
      · next falsy =>
        have other : a.truthy = false := by simpa using falsy
        exact right.evaluate_changes n (hw.enter (.logicalRight ha (.inl ⟨kind, other⟩)))
    · next kind =>
      split
      · next truthy =>
          exact right.evaluate_changes n (hw.enter (.logicalRight ha (.inr ⟨kind, truthy⟩)))
      · exact .pure a
    · exact .fail _ _
  | _ + 1, .variable name depth, _, _ => .read name depth
  | n + 1, .assign name value depth, _, hw => by
    refine .bind (value.evaluate_changes n (hw.enter .assigned)) fun v m' hv => ?_
    exact .bind (.assign fun m'' ha => hw.here (.assign hv ha)) fun _ _ _ => .pure v
  | n + 1, .call callee paren arguments, _, hw => by
    refine .bind (callee.evaluate_changes n (hw.enter .callee)) fun f m₁ hf => ?_
    refine .bind (Expr.evaluateList_changes n arguments (hw.enter (.arguments hf)))
      fun values m₂ hv => ?_
    cases f with
    | callable c =>
      dsimp only
      split
      · next arity => exact Callable.call_changes n c values (hw.enter (.call hf hv arity))
      · exact .fail _ _
    | _ => exact .fail _ _

theorem Expr.evaluateList_changes : ∀ (n : Nat) (es : List Expr) {m : Machine},
    (Part.arguments es).Covers n m W → (Expr.evaluateList n es).Changes W m
  | 0, _, _, _ => .unfinished
  | _ + 1, [], _, _ => .pure _
  | n + 1, e :: rest, _, hw => by
    refine .bind (e.evaluate_changes n (hw.enter .firstArgument)) fun v m₁ hv => ?_
    refine .bind (Expr.evaluateList_changes n rest (hw.enter (.otherArguments hv)))
      fun vs m₂ _ => ?_
    exact .pure _

theorem Callable.call_changes : ∀ (n : Nat) (c : Callable) (values : List Value) {m : Machine},
    (Part.call c values).Covers n m W → (c.call n values).Changes W m
  | 0, _, _, _, _ => .unfinished
  | n + 1, c, values, m, hw => by
    rw [Callable.call]
    cases hc : c.callee with
    | clock => exact .refl
    | closure function frame =>
      refine .bind (.inNewFrame (hw.here (.call hc)) ?_) fun completion _ _ => .pure _
      exact Stmt.executeList_changes n function.body (hw.enter (.body hc))

theorem Stmt.execute_changes : ∀ (n : Nat) (t : Stmt) {m : Machine},
    (Part.statement t).Covers n m W → (t.execute n).Changes W m
  | 0, _, _, _ => .unfinished
  | n + 1, .expression value, _, hw =>
    .bind (value.evaluate_changes n (hw.enter .expression)) fun _ _ _ => .pure _
  | n + 1, .print value, _, hw => by
    refine .bind (value.evaluate_changes n (hw.enter .printed)) fun v m' _ => ?_
    exact .refl
  | _ + 1, .variable name none, _, hw =>
    .bind (.define (hw.here .declaration)) fun _ _ _ => .pure _
  | n + 1, .variable name (some initializer), _, hw => by
    refine .bind (initializer.evaluate_changes n (hw.enter .initializer)) fun v m' hv => ?_
    exact .bind (.define (hw.here (.definition hv))) fun _ _ _ => .pure _
  | n + 1, .block body, m, hw =>
    .inNewFrame (hw.here .block) (Stmt.executeList_changes n body (hw.enter .block))
  | n + 1, .branch condition consequent alternative, _, hw => by
    refine .bind (condition.evaluate_changes n (hw.enter .branchCondition)) fun v m' hv => ?_
    split
    · next truthy => exact consequent.execute_changes n (hw.enter (.consequent hv truthy))
    · next falsy =>
      have falsy : v.truthy = false := by simpa using falsy
      cases alternative with
      | none => exact .pure _
      | some alternative =>
        exact alternative.execute_changes n (hw.enter (.alternative hv falsy))
  | n + 1, .loop condition body, _, hw => by
    refine .bind (condition.evaluate_changes n (hw.enter .loopCondition)) fun v m₁ hv => ?_
    split
    · next truthy =>
      refine .bind (body.execute_changes n (hw.enter (.loopBody hv truthy))) fun c m₂ hb => ?_
      cases c with
      | normal =>
        exact Stmt.execute_changes n (.loop condition body) (hw.enter (.loopAgain hv truthy hb))
      | returned v => exact .pure _
    · exact .pure _
  | _ + 1, .function .., m, hw => by
    refine .bind .refl fun v m' hv => ?_
    cases hv
    exact .bind (.define (hw.here .function)) fun _ _ _ => .pure _
  | _ + 1, .return _ none, _, _ => .pure _
  | n + 1, .return _ (some value), _, hw =>
    .bind (value.evaluate_changes n (hw.enter .returned)) fun _ _ _ => .pure _

theorem Stmt.executeList_changes : ∀ (n : Nat) (ts : List Stmt) {m : Machine},
    (Part.statements ts).Covers n m W → (Stmt.executeList n ts).Changes W m
  | 0, _, _, _ => .unfinished
  | _ + 1, [], _, _ => .pure _
  | n + 1, first :: rest, _, hw => by
    refine .bind (first.execute_changes n (hw.enter .first)) fun c m' hc => ?_
    cases c with
    | normal => exact Stmt.executeList_changes n rest (hw.enter (.rest hc))
    | returned v => exact .pure _

end

theorem Stmt.runProgram_changes (n : Nat) {ts : List Stmt} {m : Machine}
    (hw : (Part.program ts).Covers n m W) : (Stmt.runProgram n ts).Changes W m := by
  induction ts generalizing m with
  | nil => exact .pure _
  | cons first rest ih =>
    refine .bind (first.execute_changes n (hw.enter .programFirst)) fun c m' hc => ?_
    exact ih (hw.enter (.programRest hc))

-- ---------------------------------------------------------------------------
-- Every point
-- ---------------------------------------------------------------------------

theorem Enters.changes {n k : Nat} {p q : Part} {m m' : Machine} (h : Enters n p m k q m')
    (hp : p.Covers n m W) : Relation.ReflTransGen W m.heap m'.heap := by
  cases h with
  | binaryRight he => exact (Expr.evaluate_changes _ _ (hp.enter .binaryLeft)).of_done he
  | logicalRight he _ => exact (Expr.evaluate_changes _ _ (hp.enter .logicalLeft)).of_done he
  | arguments he => exact (Expr.evaluate_changes _ _ (hp.enter .callee)).of_done he
  | call hc hv _ =>
    exact ((Expr.evaluate_changes _ _ (hp.enter .callee)).of_done hc).trans
      ((Expr.evaluateList_changes _ _ (hp.enter (.arguments hc))).of_done hv)
  | otherArguments he => exact (Expr.evaluate_changes _ _ (hp.enter .firstArgument)).of_done he
  | body hc => exact .single (hp.here (.call hc))
  | block => exact .single (hp.here .block)
  | consequent he _ | alternative he _ =>
    exact (Expr.evaluate_changes _ _ (hp.enter .branchCondition)).of_done he
  | loopBody he _ => exact (Expr.evaluate_changes _ _ (hp.enter .loopCondition)).of_done he
  | loopAgain hc ht hb =>
    exact ((Expr.evaluate_changes _ _ (hp.enter .loopCondition)).of_done hc).trans
      ((Stmt.execute_changes _ _ (hp.enter (.loopBody hc ht))).of_done hb)
  | rest ht => exact (Stmt.execute_changes _ _ (hp.enter .first)).of_done ht
  | programRest ht => exact (Stmt.execute_changes _ _ (hp.enter .programFirst)).of_done ht
  | _ => exact .refl

theorem Reaches.changes {n k : Nat} {p q : Part} {m m' : Machine} (h : Reaches n p m k q m')
    (hp : p.Covers n m W) : Relation.ReflTransGen W m.heap m'.heap := by
  induction h with
  | here => exact .refl
  | step entered _ ih => exact (entered.changes hp).trans (ih (hp.enter entered))

end Lox
