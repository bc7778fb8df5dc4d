import Lox.Proofs.Machine.Fitting
import Lox.Proofs.Syntax.Lines

/-!
# Runs on other lines

A program whose tokens are on other lines runs as before, on a machine whose functions are on those
lines: it prints the same, takes the same frames, identities and clock readings, and ends alike,
with an error on its other line. The statements go through the steps of a run one by one; what they
have in common is `Run.OnLines`.
-/

namespace Lox

variable {α β : Type} (g : Nat → Nat)

-- ---------------------------------------------------------------------------
-- Values
-- ---------------------------------------------------------------------------

def Function.relabel (f : Function) : Function :=
  { name := f.name.relabel g
    parameters := f.parameters.map (Token.relabel g)
    body := Stmt.relabelList g f.body }

def Callable.relabel (c : Callable) : Callable :=
  match c.callee with
  | .clock => c
  | .closure function frame => { c with callee := .closure (function.relabel g) frame }

def Value.relabel : Value → Value
  | .callable c => .callable (c.relabel g)
  | v => v

theorem Callable.arity_relabel (c : Callable) : (c.relabel g).arity = c.arity := by
  obtain ⟨identity, callee⟩ := c
  cases callee with
  | clock => rfl
  | closure function frame => simp [relabel, arity, Function.relabel]

namespace Value

theorem relabel_ofConstant (c : Constant) : (ofConstant c : Value).relabel g = ofConstant c := by
  cases c <;> rfl

theorem truthy_relabel (v : Value) : (v.relabel g).truthy = v.truthy := by
  cases v <;> rfl

theorem text_relabel (v : Value) : (v.relabel g).text = v.text := by
  cases v with
  | callable c =>
    obtain ⟨identity, callee⟩ := c
    cases callee <;> rfl
  | _ => rfl

theorem equals_relabel (v w : Value) : (v.relabel g).equals (w.relabel g) = v.equals w := by
  have identity (c : Callable) : (c.relabel g).identity = c.identity := by
    obtain ⟨identity, callee⟩ := c
    cases callee <;> rfl
  cases v with
  | callable c =>
    cases w with
    | callable d => simp only [relabel, equals, identity]
    | _ => rfl
  | _ => cases w <;> rfl

theorem unary_relabel (operator : Kind) (v : Value) :
    unary operator (v.relabel g) = (unary operator v).map (relabel g) := by
  cases operator with
  | minus => cases v <;> rfl
  | bang =>
    show Except.ok (boolean !(v.relabel g).truthy) = .ok (boolean !v.truthy)
    rw [truthy_relabel]
  | _ => rfl

theorem onNumbers_relabel {rule : Float → Float → Value}
    (hr : ∀ x y, (rule x y).relabel g = rule x y)
    (v w : Value) : onNumbers rule (v.relabel g) (w.relabel g) =
      (onNumbers rule v w).map (relabel g) := by
  cases v with
  | number x =>
    cases w with
    | number y => exact congrArg Except.ok (hr x y).symm
    | _ => rfl
  | _ => rfl

theorem plus_relabel (v w : Value) :
    plus (v.relabel g) (w.relabel g) = (plus v w).map (relabel g) := by
  cases v with
  | number | string => cases w <;> rfl
  | _ => rfl

theorem binary_relabel (operator : Kind) (v w : Value) :
    binary operator (v.relabel g) (w.relabel g) = (binary operator v w).map (relabel g) := by
  unfold binary
  rw [equals_relabel]
  split
  · exact plus_relabel g v w
  all_goals first
    | exact onNumbers_relabel g (fun _ _ => rfl) v w
    | rfl

end Value

-- ---------------------------------------------------------------------------
-- Machines
-- ---------------------------------------------------------------------------

def Bindings.relabel (b : Bindings) : Bindings :=
  b.map fun (name, value) => (name, value.relabel g)

def Heap.relabel (h : Heap) : Heap :=
  { frames := h.frames.map fun f => { f with bindings := Bindings.relabel g f.bindings } }

def Machine.relabel (m : Machine) : Machine :=
  { m with heap := m.heap.relabel g }

theorem Bindings.lookup_relabel (b : Bindings) (name : String) :
    (Bindings.relabel g b).lookup name = (b.lookup name).map (Value.relabel g) := by
  induction b with
  | nil => rfl
  | cons entry rest ih =>
    obtain ⟨key, value⟩ := entry
    unfold Bindings.relabel at ih ⊢
    rw [List.map_cons, List.lookup_cons, List.lookup_cons]
    cases name == key with
    | true => rfl
    | false => exact ih

theorem Bindings.insert_relabel (b : Bindings) (name : String) (value : Value) :
    (Bindings.relabel g b).insert name (value.relabel g) =
      Bindings.relabel g (b.insert name value) := by
  induction b with
  | nil => rfl
  | cons entry rest ih =>
    obtain ⟨key, old⟩ := entry
    unfold Bindings.relabel at ih ⊢
    rw [List.map_cons, Bindings.insert, Bindings.insert, ih]
    split <;> rfl

namespace Heap

theorem bindings_relabel (h : Heap) (frame : Nat) :
    (h.relabel g).bindings frame = Bindings.relabel g (h.bindings frame) := by
  unfold bindings relabel
  rw [Array.getElem?_map]
  cases h.frames[frame]? <;> rfl

theorem own?_relabel (h : Heap) (frame : Nat) (name : String) :
    (h.relabel g).own? frame name = (h.own? frame name).map (Value.relabel g) := by
  unfold own?
  rw [bindings_relabel, Bindings.lookup_relabel]

theorem ancestor_relabel (h : Heap) (frame distance : Nat) :
    (h.relabel g).ancestor frame distance = h.ancestor frame distance := by
  have enclosing (frame : Nat) : (h.relabel g).enclosing? frame = h.enclosing? frame := by
    unfold enclosing? relabel
    rw [Array.getElem?_map]
    cases h.frames[frame]? <;> rfl
  induction distance generalizing frame with
  | zero => rfl
  | succ distance ih =>
    rw [ancestor, ancestor, enclosing]
    cases h.enclosing? frame with
    | none => rfl
    | some outer => exact ih outer

theorem define_relabel (h : Heap) (frame : Nat) (name : String) (value : Value) :
    (h.relabel g).define frame name (value.relabel g) = (h.define frame name value).relabel g := by
  unfold define relabel
  congr 1
  refine Array.ext_getElem? fun i => ?_
  rw [Array.getElem?_modify, Array.getElem?_map, Array.getElem?_map, Array.getElem?_modify]
  split
  · cases h.frames[i]? with
    | none => rfl
    | some f =>
      simp only [Option.map_some]
      rw [Bindings.insert_relabel]
  · rfl

theorem push_relabel (h : Heap) (outer : Nat) (own : Bindings) :
    (h.relabel g).push outer (Bindings.relabel g own) =
      ((h.push outer own).1, (h.push outer own).2.relabel g) := by
  simp [push, relabel]

end Heap

theorem Machine.globalNames_relabel (m : Machine) :
    (m.relabel g).globalNames = m.globalNames := by
  unfold globalNames relabel Heap.names
  rw [Heap.bindings_relabel, Bindings.relabel, List.map_map]
  rfl

theorem Machine.entered_relabel (m : Machine) (enclosing : Nat) (own : Bindings) :
    (m.relabel g).entered enclosing (Bindings.relabel g own) =
      (m.entered enclosing own).relabel g := by
  have pushed := Heap.push_relabel g m.heap enclosing own
  simp only [Machine.entered, Machine.relabel, pushed]
  simp [Heap.relabel]

theorem Function.bindings_relabel (function : Function) (arguments : List Value) :
    (function.relabel g).bindings (arguments.map (Value.relabel g)) =
      Bindings.relabel g (function.bindings arguments) := by
  unfold Function.bindings Function.relabel
  have all (parameters : List Token) (arguments : List Value) (b : Bindings) :
      ((parameters.map (Token.relabel g)).zip (arguments.map (Value.relabel g))).foldl
          (fun b bound => b.insert bound.1.lexeme bound.2) (Bindings.relabel g b) =
        Bindings.relabel g ((parameters.zip arguments).foldl
          (fun b bound => b.insert bound.1.lexeme bound.2) b) := by
    induction parameters generalizing arguments b with
    | nil => rfl
    | cons p rest ih =>
      cases arguments with
      | nil => rfl
      | cons v more =>
        simp only [List.map_cons, List.zip_cons_cons, List.foldl_cons]
        rw [Token.lexeme_relabel, Bindings.insert_relabel]
        exact ih more _
  exact all function.parameters arguments []

-- ---------------------------------------------------------------------------
-- Steps
-- ---------------------------------------------------------------------------

def RuntimeError.relabel (e : RuntimeError) : RuntimeError :=
  { e with line := g e.line }

def Completion.relabel : Completion → Completion
  | .normal => .normal
  | .returned value => .returned (value.relabel g)

/-- The outcome on other lines; `φ` says what that means for the value. -/
def Outcome.relabel (φ : α → α) : Outcome α → Outcome α
  | .done value m => .done (φ value) (m.relabel g)
  | .failed error m => .failed (error.relabel g) (m.relabel g)
  | .unfinished => .unfinished

namespace Run

/-- The second part does on other lines what the first one does. -/
def OnLines (φ : α → α) (x y : Run α) : Prop :=
  ∀ m, y (m.relabel g) = (x m).relabel g φ

variable {g} {φ : α → α} {ψ : β → β}

theorem OnLines.pure (a : α) : OnLines g φ (Pure.pure a : Run α) (Pure.pure (φ a)) :=
  fun _ => rfl

theorem OnLines.bind {x y : Run α} {f k : α → Run β} (hx : OnLines g φ x y)
    (hf : ∀ a, OnLines g ψ (f a) (k (φ a))) : OnLines g ψ (x >>= f) (y >>= k) := by
  intro m
  rw [bind_apply, bind_apply, hx m]
  cases x m with
  | done a m' => exact hf a m'
  | failed e m' => rfl
  | unfinished => rfl

theorem OnLines.ite {c : Prop} [Decidable c] {x x' y y' : Run α} (hx : OnLines g φ x y)
    (hx' : OnLines g φ x' y') : OnLines g φ (if c then x else x') (if c then y else y') := by
  split
  · exact hx
  · exact hx'

theorem OnLines.fail (line : Nat) (cause : RuntimeCause) :
    OnLines g φ (fail line cause : Run α) (fail (g line) cause) :=
  fun _ => rfl

theorem OnLines.unfinished : OnLines g φ (unfinished : Run α) unfinished :=
  fun _ => rfl

theorem OnLines.check (line : Nat) (r : Except RuntimeCause Value) :
    OnLines g (Value.relabel g) (check line r) (check (g line) (r.map (Value.relabel g))) := by
  cases r with
  | ok value => exact .pure value
  | error cause => exact .fail line cause

theorem OnLines.printLine (line : String) : OnLines g id (printLine line) (printLine line) :=
  fun _ => rfl

theorem OnLines.define (name : String) (value : Value) :
    OnLines g id (define name value) (define name (value.relabel g)) := by
  intro m
  refine congrArg (Outcome.done ()) ?_
  exact congrArg (fun h => { m with heap := h }) (Heap.define_relabel g m.heap m.current name value)

theorem OnLines.read (name : Token) (depth : Option Nat) :
    OnLines g (Value.relabel g) (read name depth) (read (name.relabel g) depth) := by
  intro m
  cases depth with
  | none =>
    rw [read_global, read_global]
    dsimp only [Machine.relabel, Token.lexeme_relabel]
    rw [Heap.own?_relabel]
    cases m.heap.own? Heap.globalFrame name.lexeme <;> rfl
  | some distance =>
    rw [read_local, read_local]
    dsimp only [Machine.relabel, Token.lexeme_relabel]
    rw [Heap.ancestor_relabel, Heap.own?_relabel]
    cases m.heap.own? (m.heap.ancestor m.current distance) name.lexeme <;> rfl

theorem OnLines.assign (name : Token) (depth : Option Nat) (value : Value) :
    OnLines g id (assign name depth value) (assign (name.relabel g) depth (value.relabel g)) := by
  intro m
  have written (frame : Nat) :
      ({ m.relabel g with heap := (m.heap.relabel g).define frame name.lexeme (value.relabel g) } :
        Machine) = Machine.relabel g { m with heap := m.heap.define frame name.lexeme value } :=
    congrArg (fun h => { m with heap := h }) (Heap.define_relabel g m.heap frame name.lexeme value)
  cases depth with
  | some distance =>
    unfold Run.assign
    dsimp only [Heap.assignAt, Machine.relabel, Token.lexeme_relabel]
    rw [Heap.ancestor_relabel]
    exact congrArg (Outcome.done ()) (written _)
  | none =>
    have bound : ((m.relabel g).heap.own? Heap.globalFrame (name.relabel g).lexeme).isSome =
        (m.heap.own? Heap.globalFrame name.lexeme).isSome := by
      dsimp only [Machine.relabel, Token.lexeme_relabel]
      rw [Heap.own?_relabel, Option.isSome_map]
    simp only [assign_global, bound]
    split
    · exact congrArg (Outcome.done ()) (written _)
    · rfl

theorem OnLines.makeClosure (function : Function) :
    OnLines g (Value.relabel g) (makeClosure function) (makeClosure (function.relabel g)) :=
  fun _ => rfl

theorem OnLines.readClock : OnLines g (Value.relabel g) readClock readClock :=
  fun _ => rfl

theorem OnLines.inNewFrame {x y : Run α} (enclosing : Nat) (own : Bindings)
    (hx : OnLines g φ x y) : OnLines g φ (inNewFrame enclosing own x)
      (inNewFrame enclosing (Bindings.relabel g own) y) := by
  intro m
  rw [inNewFrame_apply, inNewFrame_apply, Machine.entered_relabel, hx]
  cases x (m.entered enclosing own) <;> rfl

theorem OnLines.inBlock {x y : Run α} (hx : OnLines g φ x y) :
    OnLines g φ (inBlock x) (inBlock y) :=
  fun m => OnLines.inNewFrame m.current [] hx m

end Run

-- ---------------------------------------------------------------------------
-- Runs
-- ---------------------------------------------------------------------------

open Run (OnLines)

mutual

theorem Expr.evaluate_onLines : ∀ (n : Nat) (e : Expr),
    OnLines g (Value.relabel g) (e.evaluate n) ((e.relabel g).evaluate n)
  | 0, _ => .unfinished
  | _ + 1, .literal value => by
    have constant := OnLines.pure (g := g) (φ := Value.relabel g) (Value.ofConstant value)
    rw [Value.relabel_ofConstant] at constant
    exact constant
  | n + 1, .grouping inner => inner.evaluate_onLines n
  | n + 1, .unary operator operand => by
    refine .bind (operand.evaluate_onLines n) fun v => ?_
    rw [Token.line_relabel, Token.kind_relabel, Value.unary_relabel]
    exact .check _ _
  | n + 1, .binary left operator right => by
    refine .bind (left.evaluate_onLines n) fun v => .bind (right.evaluate_onLines n) fun w => ?_
    rw [Token.line_relabel, Token.kind_relabel, Value.binary_relabel]
    exact .check _ _
  | n + 1, .logical left operator right => by
    refine .bind (left.evaluate_onLines n) fun v => ?_
    rw [Token.kind_relabel, Value.truthy_relabel]
    split
    · exact .ite (.pure v) (right.evaluate_onLines n)
    · exact .ite (right.evaluate_onLines n) (.pure v)
    · exact .fail _ _
  | _ + 1, .variable name depth => .read name depth
  | n + 1, .assign name value depth =>
    .bind (value.evaluate_onLines n) fun v => .bind (.assign name depth v) fun _ => .pure v
  | n + 1, .call callee paren arguments => by
    refine .bind (callee.evaluate_onLines n) fun f => ?_
    refine .bind (Expr.evaluateList_onLines n arguments) fun values => ?_
    cases f with
    | callable c =>
      dsimp only [Value.relabel]
      rw [Callable.arity_relabel, List.length_map]
      exact .ite (c.call_onLines n values) (.fail _ _)
    | _ => exact .fail _ _

theorem Expr.evaluateList_onLines : ∀ (n : Nat) (es : List Expr),
    OnLines g (List.map (Value.relabel g)) (Expr.evaluateList n es)
      (Expr.evaluateList n (Expr.relabelList g es))
  | 0, _ => .unfinished
  | _ + 1, [] => .pure []
  | n + 1, e :: rest =>
    .bind (e.evaluate_onLines n) fun _ =>
      .bind (Expr.evaluateList_onLines n rest) fun _ => .pure _

theorem Callable.call_onLines : ∀ (n : Nat) (c : Callable) (arguments : List Value),
    OnLines g (Value.relabel g) (c.call n arguments)
      ((c.relabel g).call n (arguments.map (Value.relabel g)))
  | 0, _, _ => .unfinished
  | n + 1, ⟨identity, .clock⟩, arguments => .readClock
  | n + 1, ⟨identity, .closure function frame⟩, arguments => by
    have body := Stmt.executeList_onLines n function.body
    have framed := OnLines.inNewFrame frame (function.bindings arguments) body
    rw [← Function.bindings_relabel] at framed
    refine .bind framed fun completion => ?_
    cases completion with
    | normal => exact .pure _
    | returned value => exact .pure _

theorem Stmt.execute_onLines : ∀ (n : Nat) (t : Stmt),
    OnLines g (Completion.relabel g) (t.execute n) ((t.relabel g).execute n)
  | 0, _ => .unfinished
  | n + 1, .expression value => .bind (value.evaluate_onLines n) fun _ => .pure Completion.normal
  | n + 1, .print value => by
    refine .bind (value.evaluate_onLines n) fun v => ?_
    rw [Value.text_relabel]
    exact .bind (.printLine _) fun _ => .pure Completion.normal
  | _ + 1, .variable name none => .bind (.define name.lexeme .nil) fun _ => .pure Completion.normal
  | n + 1, .variable name (some initializer) =>
    .bind (initializer.evaluate_onLines n) fun v =>
      .bind (.define name.lexeme v) fun _ => .pure Completion.normal
  | n + 1, .block body => .inBlock (Stmt.executeList_onLines n body)
  | n + 1, .branch condition consequent none => by
    refine .bind (condition.evaluate_onLines n) fun v => ?_
    rw [Value.truthy_relabel]
    exact .ite (consequent.execute_onLines n) (.pure Completion.normal)
  | n + 1, .branch condition consequent (some alternative) => by
    refine .bind (condition.evaluate_onLines n) fun v => ?_
    rw [Value.truthy_relabel]
    exact .ite (consequent.execute_onLines n) (alternative.execute_onLines n)
  | n + 1, .loop condition body => by
    refine .bind (condition.evaluate_onLines n) fun v => ?_
    rw [Value.truthy_relabel]
    refine .ite (.bind (body.execute_onLines n) fun completion => ?_) (.pure Completion.normal)
    cases completion with
    | normal => exact Stmt.execute_onLines n (.loop condition body)
    | returned value => exact .pure (Completion.returned value)
  | _ + 1, .function name parameters body =>
    .bind (.makeClosure { name := name, parameters := parameters, body := body }) fun v =>
      .bind (.define name.lexeme v) fun _ => .pure Completion.normal
  | _ + 1, .return _ none => .pure (Completion.returned .nil)
  | n + 1, .return _ (some value) =>
    .bind (value.evaluate_onLines n) fun v => .pure (Completion.returned v)

theorem Stmt.executeList_onLines : ∀ (n : Nat) (ts : List Stmt),
    OnLines g (Completion.relabel g) (Stmt.executeList n ts)
      (Stmt.executeList n (Stmt.relabelList g ts))
  | 0, _ => .unfinished
  | _ + 1, [] => .pure Completion.normal
  | n + 1, first :: rest => by
    refine .bind (first.execute_onLines n) fun completion => ?_
    cases completion with
    | normal => exact Stmt.executeList_onLines n rest
    | returned value => exact .pure (Completion.returned value)

end

theorem Stmt.runProgram_onLines (n : Nat) (ts : List Stmt) :
    OnLines g id (Stmt.runProgram n ts) (Stmt.runProgram n (Stmt.relabelList g ts)) := by
  induction ts with
  | nil => exact .pure ()
  | cons first rest ih => exact .bind (first.execute_onLines g n) fun _ => ih

end Lox
