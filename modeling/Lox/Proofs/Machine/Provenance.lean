import Lox.Proofs.Machine.Points
import Lox.Proofs.Machine.Soundness
import Lox.Proofs.Syntax.Nodes

/-!
# What runs was there before

A running program makes no code. If a property holds of every expression in the part that runs and
in the functions that the machine holds, then it holds of every expression that is evaluated in the
course of the run (`Reaches.madeOf`), and of the functions that the machine holds afterwards,
however the run ends (`runProgram_makes`). The property can be that the expression stands in a
source that was run.
-/

namespace Lox

variable {α β : Type} {P : Expr → Prop}

-- ---------------------------------------------------------------------------
-- Values and heaps
-- ---------------------------------------------------------------------------

/-- The expressions in the body of a declared function have the property. -/
def Callable.MadeOf (P : Expr → Prop) (c : Callable) : Prop :=
  ∀ function frame, c.callee = .closure function frame → ∀ x ∈ Stmt.listNodes function.body, P x

def Value.MadeOf (P : Expr → Prop) : Value → Prop
  | .callable c => c.MadeOf P
  | _ => True

/-- All functions that are bound anywhere are made of expressions with the property. -/
def Heap.MadeOf (P : Expr → Prop) (h : Heap) : Prop :=
  ∀ frame name v, h.own? frame name = some v → v.MadeOf P

theorem Value.MadeOf.mono {R : Expr → Prop} (h : ∀ x, P x → R x) {v : Value} (hv : v.MadeOf P) :
    v.MadeOf R := by
  cases v with
  | callable c => exact fun function frame hc x hx => h x (hv function frame hc x hx)
  | _ => trivial

theorem Heap.MadeOf.mono {R : Expr → Prop} (h : ∀ x, P x → R x) {heap : Heap}
    (hh : heap.MadeOf P) : heap.MadeOf R := by
  intro frame name v hv
  exact (hh frame name v hv).mono h

theorem Value.madeOf_ofConstant (c : Constant) : (Value.ofConstant c).MadeOf P := by
  cases c <;> trivial

theorem Value.madeOf_unary {operator : Kind} {a v : Value}
    (hv : Value.unary operator a = .ok v) : v.MadeOf P := by
  unfold Value.unary at hv
  split at hv <;> cases hv <;> trivial

theorem Value.madeOf_binary {operator : Kind} {a b v : Value}
    (hv : Value.binary operator a b = .ok v) : v.MadeOf P := by
  unfold Value.binary Value.plus Value.onNumbers at hv
  repeat' split at hv
  all_goals cases hv <;> trivial

theorem Heap.MadeOf.define {h : Heap} (hh : h.MadeOf P) (frame : Nat) (name : String) {v : Value}
    (hv : v.MadeOf P) : (h.define frame name v).MadeOf P := by
  intro other key w hw
  rw [own?_define] at hw
  split at hw
  · cases hw
    exact hv
  · exact hh other key w hw

theorem Heap.MadeOf.push {h : Heap} (hh : h.MadeOf P) (outer : Nat) {own : Bindings}
    (ho : ∀ name v, own.lookup name = some v → v.MadeOf P) : (h.push outer own).2.MadeOf P := by
  intro frame name v hv
  rw [own?_push] at hv
  split at hv
  · exact ho name v hv
  · exact hh frame name v hv

-- ---------------------------------------------------------------------------
-- Runs
-- ---------------------------------------------------------------------------

/-- The part keeps functions made of expressions with the property, and gives values of its own. -/
def Run.Makes (P : Expr → Prop) (Q : α → Prop) (x : Run α) : Prop :=
  ∀ m, m.heap.MadeOf P → (x m).Ends (fun a m' => m'.heap.MadeOf P ∧ Q a) (·.heap.MadeOf P)

namespace Run

variable {Q : α → Prop} {R : β → Prop}

theorem Makes.pure {a : α} (ha : Q a) : Makes P Q (Pure.pure a : Run α) :=
  fun _ hm => ⟨hm, ha⟩

theorem Makes.fail (line : Nat) (cause : RuntimeCause) : Makes P Q (fail line cause : Run α) :=
  fun _ hm => hm

theorem Makes.unfinished : Makes P Q (unfinished : Run α) :=
  fun _ _ => trivial

theorem Makes.bind {x : Run α} {f : α → Run β} (hx : x.Makes P Q)
    (hf : ∀ a, Q a → (f a).Makes P R) : (x >>= f).Makes P R := by
  intro m hm
  refine Outcome.Ends.bind (hx m hm) ?_
  rintro a m' - ⟨hm', ha⟩
  exact hf a ha m' hm'

theorem Makes.check {r : Except RuntimeCause Value} (line : Nat)
    (hr : ∀ v, r = .ok v → v.MadeOf P) : (check line r).Makes P (Value.MadeOf P) := by
  cases r with
  | ok v => exact fun _ hm => ⟨hm, hr v rfl⟩
  | error cause => exact .fail line cause

theorem Makes.define {v : Value} (name : String) (hv : v.MadeOf P) :
    (define name v).Makes P fun _ => True :=
  fun m hm => ⟨hm.define m.current name hv, trivial⟩

theorem Makes.read (name : Token) (depth : Option Nat) :
    (read name depth).Makes P (Value.MadeOf P) := by
  intro m hm
  cases h : Run.read name depth m with
  | done v m' =>
    obtain ⟨rfl, frame, hv⟩ := Run.read_eq_done h
    exact ⟨hm, hm frame _ v hv⟩
  | failed e m' =>
    obtain ⟨rfl, -⟩ := Run.read_eq_failed h
    exact hm
  | unfinished => trivial

theorem Makes.assign {v : Value} (name : Token) (depth : Option Nat) (hv : v.MadeOf P) :
    (assign name depth v).Makes P fun _ => True := by
  intro m hm
  rcases assign_cases name m depth v with ⟨frame, written⟩ | ⟨-, missed⟩
  · rw [written]
    exact ⟨hm.define frame name.lexeme hv, trivial⟩
  · rw [missed]
    exact hm

theorem Makes.makeClosure {function : Function} (hf : ∀ x ∈ Stmt.listNodes function.body, P x) :
    (makeClosure function).Makes P (Value.MadeOf P) := by
  intro m hm
  refine ⟨hm, ?_⟩
  rintro _ _ ⟨⟩
  exact hf

theorem Makes.inNewFrame {body : Run α} (enclosing : Nat) {own : Bindings}
    (ho : ∀ name v, own.lookup name = some v → v.MadeOf P) (hb : body.Makes P Q) :
    (inNewFrame enclosing own body).Makes P Q := by
  intro m hm
  rw [inNewFrame_apply]
  refine (hb (m.entered enclosing own) (hm.push enclosing ho)).onMachine ?_ ?_
  · exact fun _ _ h => h
  · exact fun _ h => h

theorem Makes.inBlock {body : Run α} (hb : body.Makes P Q) : (inBlock body).Makes P Q :=
  fun m => Makes.inNewFrame m.current (by simp) hb m

end Run

open Run (Makes)

def Completion.MadeOf (P : Expr → Prop) (c : Completion) : Prop :=
  c.value.MadeOf P

theorem Completion.madeOf_normal : (Completion.normal : Completion).MadeOf P :=
  trivial

mutual

theorem Expr.evaluate_makes : ∀ (n : Nat) (e : Expr), (∀ x ∈ e.nodes, P x) →
    (e.evaluate n).Makes P (Value.MadeOf P)
  | 0, _, _ => .unfinished
  | _ + 1, .literal value, _ => .pure (Value.madeOf_ofConstant value)
  | n + 1, .grouping inner, he => by
    obtain ⟨-, hi⟩ := List.forall_mem_cons.mp he
    exact inner.evaluate_makes n hi
  | n + 1, .unary operator operand, he => by
    obtain ⟨-, ho⟩ := List.forall_mem_cons.mp he
    refine .bind (operand.evaluate_makes n ho) fun a _ => .check _ fun v hv => ?_
    exact Value.madeOf_unary hv
  | n + 1, .binary left operator right, he => by
    obtain ⟨-, he⟩ := List.forall_mem_cons.mp he
    obtain ⟨hl, hr⟩ := List.forall_mem_append.mp he
    refine .bind (left.evaluate_makes n hl) fun a _ => ?_
    refine .bind (right.evaluate_makes n hr) fun b _ => .check _ fun v hv => ?_
    exact Value.madeOf_binary hv
  | n + 1, .logical left operator right, he => by
    obtain ⟨-, he⟩ := List.forall_mem_cons.mp he
    obtain ⟨hl, hr⟩ := List.forall_mem_append.mp he
    refine .bind (left.evaluate_makes n hl) fun a ha => ?_
    split
    · split
      · exact .pure ha
      · exact right.evaluate_makes n hr
    · split
      · exact right.evaluate_makes n hr
      · exact .pure ha
    · exact .fail _ _
  | _ + 1, .variable name depth, _ => .read name depth
  | n + 1, .assign name value depth, he => by
    obtain ⟨-, hv⟩ := List.forall_mem_cons.mp he
    refine .bind (value.evaluate_makes n hv) fun v made => ?_
    exact .bind (.assign name depth made) fun _ _ => .pure made
  | n + 1, .call callee paren arguments, he => by
    obtain ⟨-, he⟩ := List.forall_mem_cons.mp he
    obtain ⟨hc, ha⟩ := List.forall_mem_append.mp he
    refine .bind (callee.evaluate_makes n hc) fun f hf => ?_
    refine .bind (Expr.evaluateList_makes n arguments ha) fun values hv => ?_
    split
    · split
      · exact Callable.call_makes n _ values hf hv
      · exact .fail _ _
    · exact .fail _ _

theorem Expr.evaluateList_makes : ∀ (n : Nat) (es : List Expr), (∀ x ∈ Expr.listNodes es, P x) →
    (Expr.evaluateList n es).Makes P fun values => ∀ v ∈ values, v.MadeOf P
  | 0, _, _ => .unfinished
  | _ + 1, [], _ => .pure (by simp)
  | n + 1, e :: rest, he => by
    obtain ⟨hf, hr⟩ := List.forall_mem_append.mp he
    refine .bind (e.evaluate_makes n hf) fun v hv => ?_
    refine .bind (Expr.evaluateList_makes n rest hr) fun values hvs => .pure ?_
    simpa using ⟨hv, hvs⟩

theorem Callable.call_makes : ∀ (n : Nat) (c : Callable) (values : List Value), c.MadeOf P →
    (∀ v ∈ values, v.MadeOf P) → (c.call n values).Makes P (Value.MadeOf P)
  | 0, _, _, _, _ => .unfinished
  | n + 1, c, values, hc, hv => by
    rw [Callable.call]
    cases hf : c.callee with
    | clock => exact fun m hm => ⟨hm, trivial⟩
    | closure function frame =>
      refine .bind (Q := Completion.MadeOf P) ?_ fun completion h => .pure h
      refine .inNewFrame frame ?_ (Stmt.executeList_makes n function.body (hc function frame hf))
      exact fun name v h => hv v (Function.mem_of_lookup_bindings h)

theorem Stmt.execute_makes : ∀ (n : Nat) (t : Stmt), (∀ x ∈ t.nodes, P x) →
    (t.execute n).Makes P (Completion.MadeOf P)
  | 0, _, _ => .unfinished
  | n + 1, .expression value, ht =>
    .bind (value.evaluate_makes n ht) fun _ _ => .pure Completion.madeOf_normal
  | n + 1, .print value, ht => by
    refine .bind (value.evaluate_makes n ht) fun v _ => ?_
    exact fun m hm => ⟨hm, Completion.madeOf_normal⟩
  | _ + 1, .variable name none, _ =>
    .bind (.define name.lexeme trivial) fun _ _ => .pure Completion.madeOf_normal
  | n + 1, .variable name (some initializer), ht => by
    refine .bind (initializer.evaluate_makes n ht) fun v hv => ?_
    exact .bind (.define name.lexeme hv) fun _ _ => .pure Completion.madeOf_normal
  | n + 1, .block body, ht => .inBlock (Stmt.executeList_makes n body ht)
  | n + 1, .branch condition consequent none, ht => by
    obtain ⟨hc, ht⟩ := List.forall_mem_append.mp ht
    refine .bind (condition.evaluate_makes n hc) fun v _ => ?_
    split
    · exact consequent.execute_makes n ht
    · exact .pure Completion.madeOf_normal
  | n + 1, .branch condition consequent (some alternative), ht => by
    obtain ⟨ht, ha⟩ := List.forall_mem_append.mp ht
    obtain ⟨hc, ht⟩ := List.forall_mem_append.mp ht
    refine .bind (condition.evaluate_makes n hc) fun v _ => ?_
    split
    · exact consequent.execute_makes n ht
    · exact alternative.execute_makes n ha
  | n + 1, .loop condition body, ht => by
    obtain ⟨hc, hb⟩ := List.forall_mem_append.mp ht
    refine .bind (condition.evaluate_makes n hc) fun v _ => ?_
    split
    · refine .bind (body.execute_makes n hb) fun completion h => ?_
      cases completion with
      | normal => exact Stmt.execute_makes n (.loop condition body) ht
      | returned value => exact .pure h
    · exact .pure Completion.madeOf_normal
  | _ + 1, .function name parameters body, ht => by
    refine .bind (.makeClosure ht) fun v hv => ?_
    exact .bind (.define name.lexeme hv) fun _ _ => .pure Completion.madeOf_normal
  | _ + 1, .return _ none, _ => .pure trivial
  | n + 1, .return _ (some value), ht => .bind (value.evaluate_makes n ht) fun _ hv => .pure hv

theorem Stmt.executeList_makes : ∀ (n : Nat) (ts : List Stmt), (∀ x ∈ Stmt.listNodes ts, P x) →
    (Stmt.executeList n ts).Makes P (Completion.MadeOf P)
  | 0, _, _ => .unfinished
  | _ + 1, [], _ => .pure Completion.madeOf_normal
  | n + 1, first :: rest, ht => by
    obtain ⟨hf, hr⟩ := List.forall_mem_append.mp ht
    refine .bind (first.execute_makes n hf) fun completion h => ?_
    cases completion with
    | normal => exact Stmt.executeList_makes n rest hr
    | returned value => exact .pure h

end

theorem Stmt.runProgram_makes (n : Nat) {ts : List Stmt} (ht : ∀ x ∈ Stmt.listNodes ts, P x) :
    (Stmt.runProgram n ts).Makes P fun _ => True := by
  induction ts with
  | nil => exact .pure trivial
  | cons first rest ih =>
    obtain ⟨hf, hr⟩ := List.forall_mem_append.mp ht
    exact .bind (first.execute_makes n hf) fun _ _ => ih hr

-- ---------------------------------------------------------------------------
-- Every point
-- ---------------------------------------------------------------------------

def Part.MadeOf (P : Expr → Prop) : Part → Prop
  | .expression e => ∀ x ∈ e.nodes, P x
  | .arguments es => ∀ x ∈ Expr.listNodes es, P x
  | .call c values => c.MadeOf P ∧ ∀ v ∈ values, v.MadeOf P
  | .statement t => ∀ x ∈ t.nodes, P x
  | .statements ts => ∀ x ∈ Stmt.listNodes ts, P x
  | .program ts => ∀ x ∈ Stmt.listNodes ts, P x

theorem Enters.madeOf {n k : Nat} {p q : Part} {m m' : Machine} (h : Enters n p m k q m')
    (hm : m.heap.MadeOf P) (hp : p.MadeOf P) : m'.heap.MadeOf P ∧ q.MadeOf P := by
  have evaluated {n : Nat} {e : Expr} {a : Value} {m m' : Machine} (hm : m.heap.MadeOf P)
      (he : ∀ x ∈ e.nodes, P x) (h : e.evaluate n m = .done a m') :
      m'.heap.MadeOf P ∧ a.MadeOf P :=
    (e.evaluate_makes n he m hm).of_done h
  have executed {n : Nat} {t : Stmt} {c : Completion} {m m' : Machine} (hm : m.heap.MadeOf P)
      (ht : ∀ x ∈ t.nodes, P x) (h : t.execute n m = .done c m') : m'.heap.MadeOf P :=
    ((t.execute_makes n ht m hm).of_done h).1
  cases h with
  | grouping | operand | assigned =>
    obtain ⟨-, hi⟩ := List.forall_mem_cons.mp hp
    exact ⟨hm, hi⟩
  | binaryLeft | logicalLeft | callee =>
    obtain ⟨-, hp⟩ := List.forall_mem_cons.mp hp
    obtain ⟨hl, -⟩ := List.forall_mem_append.mp hp
    exact ⟨hm, hl⟩
  | binaryRight he | logicalRight he _ | arguments he =>
    obtain ⟨-, hp⟩ := List.forall_mem_cons.mp hp
    obtain ⟨hl, hr⟩ := List.forall_mem_append.mp hp
    exact ⟨(evaluated hm hl he).1, hr⟩
  | call hc hv _ =>
    obtain ⟨-, hp⟩ := List.forall_mem_cons.mp hp
    obtain ⟨hl, hr⟩ := List.forall_mem_append.mp hp
    obtain ⟨hm₁, hf⟩ := evaluated hm hl hc
    obtain ⟨hm₂, hvs⟩ := (Expr.evaluateList_makes _ _ hr _ hm₁).of_done hv
    exact ⟨hm₂, hf, hvs⟩
  | firstArgument =>
    obtain ⟨hf, -⟩ := List.forall_mem_append.mp hp
    exact ⟨hm, hf⟩
  | otherArguments he =>
    obtain ⟨hf, hr⟩ := List.forall_mem_append.mp hp
    exact ⟨(evaluated hm hf he).1, hr⟩
  | body hc =>
    obtain ⟨made, values⟩ := hp
    exact ⟨hm.push _ fun _ v h => values v (Function.mem_of_lookup_bindings h), made _ _ hc⟩
  | expression | printed | initializer | returned => exact ⟨hm, hp⟩
  | block => exact ⟨hm.push _ (by simp), hp⟩
  | @branchCondition _ _ _ alternative =>
    cases alternative with
    | none => exact ⟨hm, (List.forall_mem_append.mp hp).1⟩
    | some other => exact ⟨hm, (List.forall_mem_append.mp (List.forall_mem_append.mp hp).1).1⟩
  | @consequent _ _ _ alternative _ _ _ he _ =>
    cases alternative with
    | none =>
      obtain ⟨hc, ht⟩ := List.forall_mem_append.mp hp
      exact ⟨(evaluated hm hc he).1, ht⟩
    | some other =>
      obtain ⟨hp, -⟩ := List.forall_mem_append.mp hp
      obtain ⟨hc, ht⟩ := List.forall_mem_append.mp hp
      exact ⟨(evaluated hm hc he).1, ht⟩
  | alternative he _ =>
    obtain ⟨hp, ha⟩ := List.forall_mem_append.mp hp
    obtain ⟨hc, -⟩ := List.forall_mem_append.mp hp
    exact ⟨(evaluated hm hc he).1, ha⟩
  | loopCondition => exact ⟨hm, (List.forall_mem_append.mp hp).1⟩
  | loopBody he _ =>
    obtain ⟨hc, hb⟩ := List.forall_mem_append.mp hp
    exact ⟨(evaluated hm hc he).1, hb⟩
  | loopAgain he _ hb =>
    obtain ⟨hc, ht⟩ := List.forall_mem_append.mp hp
    exact ⟨executed (evaluated hm hc he).1 ht hb, hp⟩
  | first | programFirst =>
    obtain ⟨hf, -⟩ := List.forall_mem_append.mp hp
    exact ⟨hm, hf⟩
  | rest ht | programRest ht =>
    obtain ⟨hf, hr⟩ := List.forall_mem_append.mp hp
    exact ⟨executed hm hf ht, hr⟩

theorem Reaches.madeOf {n k : Nat} {p q : Part} {m m' : Machine} (h : Reaches n p m k q m')
    (hm : m.heap.MadeOf P) (hp : p.MadeOf P) : q.MadeOf P := by
  induction h with
  | here => exact hp
  | step entered _ ih =>
    obtain ⟨hm', hq⟩ := entered.madeOf hm hp
    exact ih hm' hq

theorem error_made {n : Nat} {p : Part} {m : Machine} {e : RuntimeError} (hf : p.Fails n m e)
    (hm : m.heap.MadeOf P) (hp : p.MadeOf P) :
    ∃ k x m', Reaches n p m k (.expression x) m' ∧ x.Raises m' e ∧ P x := by
  obtain ⟨k, x, m', reached, raises⟩ := error_reached hf
  exact ⟨k, x, m', reached, raises, reached.madeOf hm hp x x.mem_nodes_self⟩

end Lox
