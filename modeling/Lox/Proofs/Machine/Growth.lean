import Lox.Machine.Execute

/-!
# Machines only grow

Whatever part of a program runs, and however it ends, the frames that were there keep their
enclosing frame and every name they bind, the current frame is current again, and the output goes on
from what it was. Nothing is assumed about the part or about the machine.
-/

namespace Lox

variable {α β : Type}

/-- The post-condition of an outcome: `Q` for a value and its machine, `E` for the machine an error
leaves. A part that does not finish has none. -/
def Outcome.Ends (Q : α → Machine → Prop) (E : Machine → Prop) : Outcome α → Prop
  | .done value m => Q value m
  | .failed _ m => E m
  | .unfinished => True

theorem Outcome.Ends.mono {Q R : α → Machine → Prop} {E F : Machine → Prop} {o : Outcome α}
    (h : o.Ends Q E) (hQ : ∀ a m, Q a m → R a m) (hE : ∀ m, E m → F m) : o.Ends R F := by
  cases o with
  | done a m => exact hQ a m h
  | failed e m => exact hE m h
  | unfinished => trivial

theorem Outcome.Ends.of_done {Q : α → Machine → Prop} {E : Machine → Prop} {o : Outcome α} {a : α}
    {m : Machine} (h : o.Ends Q E) (ho : o = .done a m) : Q a m := by
  rwa [ho] at h

theorem Outcome.Ends.bind {x : Run α} {f : α → Run β} {m : Machine} {Q : α → Machine → Prop}
    {R : β → Machine → Prop} {E : Machine → Prop} (hx : (x m).Ends Q E)
    (hf : ∀ a m', x m = .done a m' → Q a m' → (f a m').Ends R E) : ((x >>= f) m).Ends R E := by
  rw [Run.bind_apply]
  cases h : x m with
  | done a m' =>
    rw [h] at hx
    exact hf a m' h hx
  | failed e m' =>
    rw [h] at hx
    exact hx
  | unfinished => trivial

theorem Outcome.Ends.onMachine {Q R : α → Machine → Prop} {E F : Machine → Prop} {o : Outcome α}
    {change : Machine → Machine} (h : o.Ends Q E) (hQ : ∀ a m, Q a m → R a (change m))
    (hE : ∀ m, E m → F (change m)) : (o.onMachine change).Ends R F := by
  cases o with
  | done a m => exact hQ a m h
  | failed e m => exact hE m h
  | unfinished => trivial

def Machine.entered (m : Machine) (enclosing : Nat) (own : Bindings) : Machine :=
  { m with heap := (m.heap.push enclosing own).2, current := m.heap.frames.size }

theorem Run.inNewFrame_apply (enclosing : Nat) (own : Bindings) (body : Run α) (m : Machine) :
    inNewFrame enclosing own body m =
      (body (m.entered enclosing own)).onMachine ({ · with current := m.current }) :=
  rfl

-- ---------------------------------------------------------------------------
-- Heaps
-- ---------------------------------------------------------------------------

/-- What no step takes away from a heap. -/
structure Heap.Grows (h h' : Heap) : Prop where
  size : h.frames.size ≤ h'.frames.size
  enclosing : ∀ frame, frame < h.frames.size → h'.enclosing? frame = h.enclosing? frame
  bound : ∀ frame name, (h.own? frame name).isSome → (h'.own? frame name).isSome

namespace Heap

theorem Grows.refl (h : Heap) : h.Grows h :=
  ⟨Nat.le_refl _, fun _ _ => rfl, fun _ _ b => b⟩

theorem Grows.trans {a b c : Heap} (hab : a.Grows b) (hbc : b.Grows c) : a.Grows c where
  size := Nat.le_trans hab.size hbc.size
  enclosing frame hf := by
    rw [hbc.enclosing frame (Nat.lt_of_lt_of_le hf hab.size), hab.enclosing frame hf]
  bound frame name hb := hbc.bound frame name (hab.bound frame name hb)

theorem own?_define (h : Heap) (frame other : Nat) (name key : String) (value : Value) :
    (h.define frame name value).own? other key =
      if frame = other ∧ other < h.frames.size ∧ key = name then some value
      else h.own? other key := by
  unfold own?
  rw [bindings_define]
  by_cases hf : frame = other ∧ other < h.frames.size
  · rw [if_pos hf, Bindings.lookup_insert]
    by_cases hk : key = name
    · rw [if_pos hk, if_pos ⟨hf.1, hf.2, hk⟩]
    · rw [if_neg hk, if_neg fun c => hk c.2.2]
  · rw [if_neg hf, if_neg fun c => hf ⟨c.1, c.2.1⟩]

theorem own?_push (h : Heap) (outer : Nat) (own : Bindings) (frame : Nat) (name : String) :
    (h.push outer own).2.own? frame name =
      if frame = h.frames.size then own.lookup name else h.own? frame name := by
  unfold own?
  rw [bindings_push]
  split <;> rfl

theorem own?_of_size_le {h : Heap} {frame : Nat} (hf : h.frames.size ≤ frame) (name : String) :
    h.own? frame name = none := by
  simp [own?, bindings, Array.getElem?_eq_none hf]

theorem isSome_own?_iff {h : Heap} {frame : Nat} {name : String} :
    (h.own? frame name).isSome ↔ name ∈ h.names frame := by
  unfold own? names
  rw [List.lookup_isSome_iff, List.mem_map]
  refine exists_congr fun entry => and_congr_right fun _ => ?_
  rw [beq_iff_eq]
  exact eq_comm

theorem Grows.define (h : Heap) (frame : Nat) (name : String) (value : Value) :
    h.Grows (h.define frame name value) where
  size := Nat.le_of_eq (size_define ..).symm
  enclosing other _ := enclosing?_define ..
  bound other key hb := by
    rw [own?_define]
    split
    · rfl
    · exact hb

theorem Grows.push (h : Heap) (outer : Nat) (own : Bindings) : h.Grows (h.push outer own).2 where
  size := by rw [size_push]; exact Nat.le_succ _
  enclosing frame hf := by rw [enclosing?_push, if_neg (Nat.ne_of_lt hf)]
  bound frame name hb := by
    rw [own?_push]
    split
    · next new =>
      rw [own?_of_size_le (Nat.le_of_eq new.symm)] at hb
      cases hb
    · exact hb

end Heap

-- ---------------------------------------------------------------------------
-- Machines
-- ---------------------------------------------------------------------------

/-- What every run keeps: the current frame, and the heap and the output up to additions. -/
structure Machine.Grows (m m' : Machine) : Prop where
  current : m'.current = m.current
  heap : m.heap.Grows m'.heap
  output : ∃ text, m'.output = m.output.write text

theorem Output.write_empty (o : Output) : o.write "" = o := by
  cases o <;> simp [Output.write]

theorem Output.write_write (o : Output) (a b : String) :
    (o.write a).write b = o.write (a ++ b) := by
  cases o <;> simp [Output.write, String.append_assoc]

theorem Machine.Grows.refl (m : Machine) : m.Grows m :=
  ⟨rfl, .refl _, "", (Output.write_empty _).symm⟩

theorem Machine.Grows.trans {a b c : Machine} (hab : a.Grows b) (hbc : b.Grows c) : a.Grows c := by
  obtain ⟨s, hs⟩ := hab.output
  obtain ⟨t, ht⟩ := hbc.output
  exact ⟨hbc.current.trans hab.current, hab.heap.trans hbc.heap, s ++ t,
    by rw [ht, hs, Output.write_write]⟩

theorem Machine.Grows.ofHeap {m : Machine} {h : Heap} (hg : m.heap.Grows h) :
    m.Grows { m with heap := h } :=
  ⟨rfl, hg, "", (Output.write_empty _).symm⟩

def Run.Grows (x : Run α) : Prop :=
  ∀ m, (x m).Ends (fun _ => m.Grows) m.Grows

namespace Run

theorem Grows.done {x : Run α} (hx : x.Grows) {m m' : Machine} {a : α} (h : x m = .done a m') :
    m.Grows m' :=
  (hx m).of_done h

theorem Grows.pure (a : α) : Grows (Pure.pure a : Run α) :=
  Machine.Grows.refl

theorem Grows.bind {x : Run α} {f : α → Run β} (hx : x.Grows) (hf : ∀ a, (f a).Grows) :
    (x >>= f).Grows := by
  intro m
  refine Outcome.Ends.bind (hx m) ?_
  intro a m' _ hm
  exact (hf a m').mono (fun _ _ => hm.trans) (fun _ => hm.trans)

theorem Grows.fail (line : Nat) (cause : RuntimeCause) : Grows (fail line cause : Run α) :=
  Machine.Grows.refl

theorem Grows.unfinished : Grows (unfinished : Run α) :=
  fun _ => trivial

theorem Grows.check (line : Nat) (r : Except RuntimeCause Value) : (check line r).Grows := by
  cases r with
  | ok value => exact Machine.Grows.refl
  | error cause => exact .fail line cause

theorem Grows.printLine (line : String) : (printLine line).Grows :=
  fun _ => ⟨rfl, .refl _, line ++ "\n", Output.write_write ..⟩

theorem Grows.define (name : String) (value : Value) : (define name value).Grows :=
  fun _ => .ofHeap (.define ..)

theorem Grows.read (name : Token) (depth : Option Nat) : (read name depth).Grows := by
  intro m
  rcases read_cases name m depth with ⟨_, value, -, read⟩ | missed
  · rw [read]
    exact .refl m
  · rw [missed]
    exact .refl m

theorem Grows.assign (name : Token) (depth : Option Nat) (value : Value) :
    (assign name depth value).Grows := by
  intro m
  rcases assign_cases name m depth value with ⟨frame, written⟩ | ⟨-, missed⟩
  · rw [written]
    exact .ofHeap (.define ..)
  · rw [missed]
    exact .refl m

theorem Grows.makeClosure (function : Function) : (makeClosure function).Grows :=
  fun _ => ⟨rfl, .refl _, "", (Output.write_empty _).symm⟩

theorem Grows.readClock : readClock.Grows :=
  fun _ => ⟨rfl, .refl _, "", (Output.write_empty _).symm⟩

theorem Grows.inNewFrame {body : Run α} (enclosing : Nat) (own : Bindings) (hb : body.Grows) :
    (inNewFrame enclosing own body).Grows := by
  intro m
  rw [inNewFrame_apply]
  have restored {m'} (hg : (m.entered enclosing own).Grows m') :
      m.Grows { m' with current := m.current } :=
    ⟨rfl, (Heap.Grows.push ..).trans hg.heap, hg.output⟩
  exact (hb (m.entered enclosing own)).onMachine (fun _ _ => restored) (fun _ => restored)

theorem Grows.inBlock {body : Run α} (hb : body.Grows) : (inBlock body).Grows :=
  fun m => Grows.inNewFrame m.current [] hb m

end Run

-- ---------------------------------------------------------------------------
-- Runs
-- ---------------------------------------------------------------------------

open Run (Grows)

mutual

theorem Expr.evaluate_grows : ∀ (n : Nat) (e : Expr), (e.evaluate n).Grows
  | 0, _ => .unfinished
  | _ + 1, .literal _ => .pure _
  | n + 1, .grouping inner => inner.evaluate_grows n
  | n + 1, .unary _ operand => .bind (operand.evaluate_grows n) fun _ => .check _ _
  | n + 1, .binary left _ right =>
    .bind (left.evaluate_grows n) fun _ => .bind (right.evaluate_grows n) fun _ => .check _ _
  | n + 1, .logical left operator right => by
    refine .bind (left.evaluate_grows n) fun value => ?_
    split
    · split
      · exact .pure _
      · exact right.evaluate_grows n
    · split
      · exact right.evaluate_grows n
      · exact .pure _
    · exact .fail _ _
  | _ + 1, .variable name depth => .read name depth
  | n + 1, .assign name value depth =>
    .bind (value.evaluate_grows n) fun _ => .bind (.assign _ _ _) fun _ => .pure _
  | n + 1, .call callee paren arguments => by
    refine .bind (callee.evaluate_grows n) fun f => ?_
    refine .bind (Expr.evaluateList_grows n arguments) fun values => ?_
    split
    · split
      · exact Callable.call_grows n _ values
      · exact .fail _ _
    · exact .fail _ _

theorem Expr.evaluateList_grows : ∀ (n : Nat) (es : List Expr), (Expr.evaluateList n es).Grows
  | 0, _ => .unfinished
  | _ + 1, [] => .pure _
  | n + 1, e :: rest =>
    .bind (e.evaluate_grows n) fun _ => .bind (Expr.evaluateList_grows n rest) fun _ => .pure _

theorem Callable.call_grows :
    ∀ (n : Nat) (c : Callable) (arguments : List Value), (c.call n arguments).Grows
  | 0, _, _ => .unfinished
  | n + 1, c, arguments => by
    rw [Callable.call]
    split
    · exact .readClock
    · exact .bind (.inNewFrame _ _ (Stmt.executeList_grows n _)) fun _ => .pure _

theorem Stmt.execute_grows : ∀ (n : Nat) (t : Stmt), (t.execute n).Grows
  | 0, _ => .unfinished
  | n + 1, .expression value => .bind (value.evaluate_grows n) fun _ => .pure _
  | n + 1, .print value =>
    .bind (value.evaluate_grows n) fun _ => .bind (.printLine _) fun _ => .pure _
  | _ + 1, .variable _ none => .bind (.define _ _) fun _ => .pure _
  | n + 1, .variable _ (some initializer) =>
    .bind (initializer.evaluate_grows n) fun _ => .bind (.define _ _) fun _ => .pure _
  | n + 1, .block body => .inBlock (Stmt.executeList_grows n body)
  | n + 1, .branch condition consequent alternative => by
    refine .bind (condition.evaluate_grows n) fun value => ?_
    split
    · exact consequent.execute_grows n
    · split
      · exact Stmt.execute_grows n _
      · exact .pure _
  | n + 1, .loop condition body => by
    refine .bind (condition.evaluate_grows n) fun value => ?_
    split
    · refine .bind (body.execute_grows n) fun completion => ?_
      split
      · exact Stmt.execute_grows n _
      · exact .pure _
    · exact .pure _
  | _ + 1, .function .. => .bind (.makeClosure _) fun _ => .bind (.define _ _) fun _ => .pure _
  | _ + 1, .return _ none => .pure _
  | n + 1, .return _ (some value) => .bind (value.evaluate_grows n) fun _ => .pure _

theorem Stmt.executeList_grows : ∀ (n : Nat) (ts : List Stmt), (Stmt.executeList n ts).Grows
  | 0, _ => .unfinished
  | _ + 1, [] => .pure _
  | n + 1, first :: rest => by
    refine .bind (first.execute_grows n) fun completion => ?_
    split
    · exact Stmt.executeList_grows n rest
    · exact .pure _

end

theorem Stmt.runProgram_grows (n : Nat) (ts : List Stmt) : (Stmt.runProgram n ts).Grows := by
  induction ts with
  | nil => exact .pure _
  | cons first rest ih => exact .bind (first.execute_grows n) fun _ => ih

end Lox
