import Lox.Proofs.Machine.Growth

/-!
# More steps

A part of a program that ends within some number of steps ends alike within any larger one. One step
more is enough to look at: every rule hands on to its parts one step less than it has.
-/

namespace Lox

variable {α β : Type}

namespace Run

/-- The second part ends as the first one does, wherever that one ends. -/
def ExtendedBy (x y : Run α) : Prop :=
  ∀ m, x m ≠ .unfinished → y m = x m

theorem ExtendedBy.refl (x : Run α) : x.ExtendedBy x :=
  fun _ _ => rfl

theorem ExtendedBy.trans {x y z : Run α} (hxy : x.ExtendedBy y) (hyz : y.ExtendedBy z) :
    x.ExtendedBy z := by
  intro m hm
  have same := hxy m hm
  rw [hyz m (same ▸ hm), same]

theorem ExtendedBy.unfinished (y : Run α) : (unfinished : Run α).ExtendedBy y :=
  fun _ hm => absurd rfl hm

theorem ExtendedBy.bind {x y : Run α} {f g : α → Run β} (hx : x.ExtendedBy y)
    (hf : ∀ a, (f a).ExtendedBy (g a)) : (x >>= f).ExtendedBy (y >>= g) := by
  intro m hm
  rw [bind_apply] at hm ⊢
  rw [bind_apply]
  cases h : x m with
  | done a m' =>
    rw [h] at hm
    rw [hx m (by simp [h]), h]
    exact hf a m' hm
  | failed e m' => rw [hx m (by simp [h]), h]
  | unfinished =>
    rw [h] at hm
    exact absurd rfl hm

theorem ExtendedBy.inNewFrame {x y : Run α} (enclosing : Nat) (own : Bindings)
    (hx : x.ExtendedBy y) :
    (inNewFrame enclosing own x).ExtendedBy (inNewFrame enclosing own y) := by
  intro m hm
  rw [inNewFrame_apply] at hm ⊢
  rw [inNewFrame_apply, hx]
  intro h
  rw [h] at hm
  exact hm rfl

theorem ExtendedBy.inBlock {x y : Run α} (hx : x.ExtendedBy y) :
    (inBlock x).ExtendedBy (inBlock y) :=
  fun m => ExtendedBy.inNewFrame m.current [] hx m

end Run

open Run (ExtendedBy)

mutual

theorem Expr.evaluate_extended :
    ∀ (n : Nat) (e : Expr), (e.evaluate n).ExtendedBy (e.evaluate (n + 1))
  | 0, _ => .unfinished _
  | _ + 1, .literal _ => .refl _
  | n + 1, .grouping inner => inner.evaluate_extended n
  | n + 1, .unary _ operand => .bind (operand.evaluate_extended n) fun _ => .refl _
  | n + 1, .binary left _ right =>
    .bind (left.evaluate_extended n) fun _ => .bind (right.evaluate_extended n) fun _ => .refl _
  | n + 1, .logical left operator right => by
    refine .bind (left.evaluate_extended n) fun value => ?_
    split
    · split
      · exact .refl _
      · exact right.evaluate_extended n
    · split
      · exact right.evaluate_extended n
      · exact .refl _
    · exact .refl _
  | _ + 1, .variable _ _ => .refl _
  | n + 1, .assign _ value _ => .bind (value.evaluate_extended n) fun _ => .refl _
  | n + 1, .call callee _ arguments => by
    refine .bind (callee.evaluate_extended n) fun f => ?_
    refine .bind (Expr.evaluateList_extended n arguments) fun values => ?_
    split
    · split
      · exact Callable.call_extended n _ values
      · exact .refl _
    · exact .refl _

theorem Expr.evaluateList_extended :
    ∀ (n : Nat) (es : List Expr), (Expr.evaluateList n es).ExtendedBy (Expr.evaluateList (n + 1) es)
  | 0, _ => .unfinished _
  | _ + 1, [] => .refl _
  | n + 1, e :: rest =>
    .bind (e.evaluate_extended n) fun _ =>
      .bind (Expr.evaluateList_extended n rest) fun _ => .refl _

theorem Callable.call_extended : ∀ (n : Nat) (c : Callable) (arguments : List Value),
    (c.call n arguments).ExtendedBy (c.call (n + 1) arguments)
  | 0, _, _ => .unfinished _
  | n + 1, c, arguments => by
    rw [Callable.call, Callable.call]
    split
    · exact .refl _
    · exact .bind (.inNewFrame _ _ (Stmt.executeList_extended n _)) fun _ => .refl _

theorem Stmt.execute_extended :
    ∀ (n : Nat) (t : Stmt), (t.execute n).ExtendedBy (t.execute (n + 1))
  | 0, _ => .unfinished _
  | n + 1, .expression value => .bind (value.evaluate_extended n) fun _ => .refl _
  | n + 1, .print value => .bind (value.evaluate_extended n) fun _ => .refl _
  | _ + 1, .variable _ none => .refl _
  | n + 1, .variable _ (some initializer) =>
    .bind (initializer.evaluate_extended n) fun _ => .refl _
  | n + 1, .block body => .inBlock (Stmt.executeList_extended n body)
  | n + 1, .branch condition consequent alternative => by
    refine .bind (condition.evaluate_extended n) fun value => ?_
    split
    · exact consequent.execute_extended n
    · split
      · exact Stmt.execute_extended n _
      · exact .refl _
  | n + 1, .loop condition body => by
    refine .bind (condition.evaluate_extended n) fun value => ?_
    split
    · refine .bind (body.execute_extended n) fun completion => ?_
      split
      · exact Stmt.execute_extended n _
      · exact .refl _
    · exact .refl _
  | _ + 1, .function .. => .refl _
  | _ + 1, .return _ none => .refl _
  | n + 1, .return _ (some value) => .bind (value.evaluate_extended n) fun _ => .refl _

theorem Stmt.executeList_extended :
    ∀ (n : Nat) (ts : List Stmt), (Stmt.executeList n ts).ExtendedBy (Stmt.executeList (n + 1) ts)
  | 0, _ => .unfinished _
  | _ + 1, [] => .refl _
  | n + 1, first :: rest => by
    refine .bind (first.execute_extended n) fun completion => ?_
    split
    · exact Stmt.executeList_extended n rest
    · exact .refl _

end

theorem Stmt.runProgram_extended {n n' : Nat} (hn : n ≤ n') (ts : List Stmt) :
    (Stmt.runProgram n ts).ExtendedBy (Stmt.runProgram n' ts) := by
  induction hn with
  | refl => exact .refl _
  | @step k _ ih =>
    refine ih.trans ?_
    clear ih
    induction ts with
    | nil => exact .refl _
    | cons first rest more => exact .bind (first.execute_extended k) fun _ => more

end Lox
