import Lox.Proofs.Machine.Soundness

/-!
# Frames out of reach stay as they are

From a frame one comes to the frame around it and to the frames that functions bound in it captured.
What a program cannot come to in this way, from the current frame and the global one, it leaves as
it was, and it does not come within reach either; and what a call cannot come to from the function
and its arguments the call leaves as it was. So two functions affect each other only through frames
that both can come to.

The values that a run holds while they are bound nowhere make reachability itself a poor invariant.
A *region* takes its place: a set of frames, with all that are still to be made, that no link and no
function leads out of. It is the same from the start of a run to its end.
-/

namespace Lox

variable {α β : Type}

-- ---------------------------------------------------------------------------
-- Reach
-- ---------------------------------------------------------------------------

def Value.captured? : Value → Option Nat
  | .callable ⟨_, .closure _ frame⟩ => some frame
  | _ => none

/-- The frames that one comes to from some frames: those around them, and those that functions bound
in them captured. -/
inductive Heap.InReach (h : Heap) (roots : Nat → Prop) : Nat → Prop
  | root {frame : Nat} : roots frame → InReach h roots frame
  | enclosing {frame outer : Nat} :
    InReach h roots frame → h.enclosing? frame = some outer → InReach h roots outer
  | captured {frame inner : Nat} {name : String} {v : Value} :
    InReach h roots frame → h.own? frame name = some v → v.captured? = some inner →
    InReach h roots inner

/-- Where a program can start from: the current frame and the global one. -/
def Machine.Root (m : Machine) (frame : Nat) : Prop :=
  frame = m.current ∨ frame = Heap.globalFrame

/-- Where a call can start from that is made with these values, the function among them: the frames
that they captured, and the global one, which every body can use. -/
def Value.Root (values : List Value) (frame : Nat) : Prop :=
  frame = Heap.globalFrame ∨ ∃ v ∈ values, v.captured? = some frame

/-- What was out of reach of the first roots is unchanged, and out of reach of the second ones. -/
structure Heap.Isolates (h : Heap) (roots : Nat → Prop) (h' : Heap) (roots' : Nat → Prop) :
    Prop where
  unchanged : ∀ {frame : Nat}, frame < h.frames.size → ¬ h.InReach roots frame →
    h'.bindings frame = h.bindings frame
  reach : ∀ {frame : Nat}, frame < h.frames.size → h'.InReach roots' frame → h.InReach roots frame

-- ---------------------------------------------------------------------------
-- Regions
-- ---------------------------------------------------------------------------

def Value.Within (region : Nat → Prop) (v : Value) : Prop :=
  ∀ frame, v.captured? = some frame → region frame

structure Heap.Closed (region : Nat → Prop) (h : Heap) : Prop where
  enclosing : ∀ {frame outer : Nat}, region frame → h.enclosing? frame = some outer → region outer
  bound : ∀ {frame : Nat} {name : String} {v : Value},
    region frame → h.own? frame name = some v → v.Within region

/-- A machine that runs in a region. -/
structure Machine.Confined (region : Nat → Prop) (m : Machine) : Prop where
  heap : m.heap.Closed region
  global : region Heap.globalFrame
  fresh : ∀ frame, m.heap.frames.size ≤ frame → region frame
  current : region m.current

structure Machine.MovesIn (region : Nat → Prop) (m m' : Machine) : Prop where
  confined : m'.Confined region
  outside : ∀ frame, ¬ region frame → m'.heap.bindings frame = m.heap.bindings frame

variable {region : Nat → Prop}

namespace Value

theorem within_of_captured?_eq_none {v : Value} (h : v.captured? = none) : v.Within region := by
  intro frame hf
  rw [h] at hf
  cases hf

theorem within_nil : nil.Within region :=
  within_of_captured?_eq_none rfl

theorem within_ofConstant (c : Constant) : (ofConstant c : Value).Within region := by
  cases c <;> exact within_of_captured?_eq_none rfl

theorem within_unary {operator : Kind} {a v : Value} (hv : unary operator a = .ok v) :
    v.Within region := by
  unfold unary at hv
  split at hv <;> cases hv <;> exact within_of_captured?_eq_none rfl

theorem within_binary {operator : Kind} {a b v : Value} (hv : binary operator a b = .ok v) :
    v.Within region := by
  unfold binary plus onNumbers at hv
  repeat' split at hv
  all_goals cases hv <;> exact within_of_captured?_eq_none rfl

end Value

namespace Heap

theorem Closed.define {h : Heap} (hc : h.Closed region) (frame : Nat) (name : String) {v : Value}
    (hv : v.Within region) : (h.define frame name v).Closed region where
  enclosing hr he := hc.enclosing hr (enclosing?_define h .. ▸ he)
  bound hr hb := by
    rw [own?_define] at hb
    split at hb
    · cases hb
      exact hv
    · exact hc.bound hr hb

theorem Closed.push {h : Heap} (hc : h.Closed region) {outer : Nat} (ho : region outer)
    {own : Bindings} (hb : ∀ name v, own.lookup name = some v → v.Within region) :
    (h.push outer own).2.Closed region where
  enclosing hr he := by
    rw [enclosing?_push] at he
    split at he
    · obtain ⟨same, -⟩ := Option.filter_eq_some_iff.1 he
      cases same
      exact ho
    · exact hc.enclosing hr he
  bound hr hv := by
    rw [own?_push] at hv
    split at hv
    · exact hb _ _ hv
    · exact hc.bound hr hv

theorem Closed.ancestor {h : Heap} (hc : h.Closed region) {frame : Nat} (hr : region frame)
    (distance : Nat) : region (h.ancestor frame distance) := by
  induction distance generalizing frame with
  | zero => exact hr
  | succ distance ih =>
    unfold Heap.ancestor
    split
    · next outer he => exact ih (hc.enclosing hr he)
    · exact hr

theorem Closed.inReach {h : Heap} (hc : h.Closed region) {roots : Nat → Prop}
    (hr : ∀ frame, roots frame → region frame) {frame : Nat} (hf : h.InReach roots frame) :
    region frame := by
  induction hf with
  | root hf => exact hr _ hf
  | enclosing _ he ih => exact hc.enclosing ih he
  | captured _ hb hv ih => exact hc.bound ih hb _ hv

end Heap

namespace Machine

theorem MovesIn.refl {m : Machine} (hm : m.Confined region) : m.MovesIn region m :=
  ⟨hm, fun _ _ => rfl⟩

theorem MovesIn.trans {a b c : Machine} (hab : a.MovesIn region b) (hbc : b.MovesIn region c) :
    a.MovesIn region c :=
  ⟨hbc.confined, fun frame hf => (hbc.outside frame hf).trans (hab.outside frame hf)⟩

theorem Confined.ofHeap {m m' : Machine} (hm : m.Confined region) (hh : m'.heap = m.heap)
    (hc : m'.current = m.current) : m.MovesIn region m' :=
  ⟨⟨hh ▸ hm.heap, hm.global, hh ▸ hm.fresh, hc ▸ hm.current⟩, fun _ _ => by rw [hh]⟩

theorem Confined.define {m : Machine} (hm : m.Confined region) {frame : Nat} (hf : region frame)
    (name : String) {v : Value} (hv : v.Within region) :
    m.MovesIn region { m with heap := m.heap.define frame name v } := by
  refine ⟨⟨hm.heap.define frame name hv, hm.global, fun other ho => ?_, hm.current⟩,
    fun other ho => ?_⟩
  · exact hm.fresh other (by simpa using ho)
  · rw [Heap.bindings_define, if_neg]
    rintro ⟨rfl, -⟩
    exact ho hf

theorem Confined.entered {m : Machine} (hm : m.Confined region) {outer : Nat} (ho : region outer)
    {own : Bindings} (hb : ∀ name v, own.lookup name = some v → v.Within region) :
    m.MovesIn region (m.entered outer own) := by
  have new : region m.heap.frames.size := hm.fresh _ (Nat.le_refl _)
  refine ⟨⟨hm.heap.push ho hb, hm.global, fun frame hf => ?_, new⟩, fun frame hf => ?_⟩
  · refine hm.fresh frame (Nat.le_trans ?_ hf)
    simp [Machine.entered]
  · show (m.heap.push outer own).2.bindings frame = _
    rw [Heap.bindings_push, if_neg]
    rintro rfl
    exact hf new

theorem MovesIn.restored {m m' : Machine} (h : m.MovesIn region m') {frame : Nat}
    (hf : region frame) : m.MovesIn region { m' with current := frame } :=
  ⟨⟨h.confined.heap, h.confined.global, h.confined.fresh, hf⟩, h.outside⟩

end Machine

-- ---------------------------------------------------------------------------
-- Steps
-- ---------------------------------------------------------------------------

/-- A part that does not leave a region it starts in, and gives a value with a property. -/
def Run.StaysIn (region : Nat → Prop) (P : α → Prop) (x : Run α) : Prop :=
  ∀ m, m.Confined region → (x m).Ends (fun a m' => P a ∧ m.MovesIn region m') (m.MovesIn region)

namespace Run

theorem StaysIn.pure {P : α → Prop} {a : α} (h : P a) : StaysIn region P (Pure.pure a) :=
  fun _ hm => ⟨h, .refl hm⟩

theorem StaysIn.normal : StaysIn region (·.value.Within region) (Pure.pure Completion.normal) :=
  .pure Value.within_nil

theorem StaysIn.fail {P : α → Prop} (line : Nat) (cause : RuntimeCause) :
    StaysIn region P (fail line cause) :=
  fun _ hm => .refl hm

theorem StaysIn.unfinished {P : α → Prop} : StaysIn region P unfinished :=
  fun _ _ => trivial

theorem StaysIn.bind {P : α → Prop} {Q : β → Prop} {x : Run α} {f : α → Run β}
    (hx : x.StaysIn region P) (hf : ∀ a, P a → (f a).StaysIn region Q) :
    (x >>= f).StaysIn region Q := by
  intro m hm
  refine Outcome.Ends.bind (hx m hm) ?_
  rintro a m' - ⟨ha, moved⟩
  exact (hf a ha m' moved.confined).mono (fun _ _ h => ⟨h.1, moved.trans h.2⟩) fun _ => moved.trans

theorem StaysIn.check {line : Nat} {r : Except RuntimeCause Value}
    (hr : ∀ v, r = .ok v → v.Within region) : (check line r).StaysIn region (·.Within region) := by
  cases r with
  | ok v => exact fun _ hm => ⟨hr v rfl, .refl hm⟩
  | error cause => exact .fail line cause

theorem StaysIn.printLine (line : String) : (printLine line).StaysIn region fun _ => True :=
  fun _ hm => ⟨trivial, hm.ofHeap rfl rfl⟩

theorem StaysIn.readClock : readClock.StaysIn region (·.Within region) :=
  fun _ hm => ⟨Value.within_of_captured?_eq_none rfl, hm.ofHeap rfl rfl⟩

theorem StaysIn.makeClosure (function : Function) :
    (makeClosure function).StaysIn region (·.Within region) := by
  intro m hm
  refine ⟨?_, hm.ofHeap rfl rfl⟩
  rintro frame ⟨⟩
  exact hm.current

theorem StaysIn.define (name : String) {v : Value} (hv : v.Within region) :
    (define name v).StaysIn region fun _ => True :=
  fun _ hm => ⟨trivial, hm.define hm.current name hv⟩

theorem StaysIn.read (name : Token) (depth : Option Nat) :
    (read name depth).StaysIn region (·.Within region) := by
  intro m hm
  have found {frame : Nat} {v : Value} (hf : region frame)
      (hv : m.heap.own? frame name.lexeme = some v) : v.Within region ∧ m.MovesIn region m :=
    ⟨hm.heap.bound hf hv, .refl hm⟩
  cases depth with
  | some distance =>
    rw [read_local]
    split
    · next hv => exact found (hm.heap.ancestor hm.current distance) hv
    · exact .refl hm
  | none =>
    rw [read_global]
    split
    · next hv => exact found hm.global hv
    · exact .refl hm

theorem StaysIn.assign (name : Token) (depth : Option Nat) {v : Value} (hv : v.Within region) :
    (assign name depth v).StaysIn region fun _ => True := by
  intro m hm
  cases depth with
  | some distance =>
    exact ⟨trivial, hm.define (hm.heap.ancestor hm.current distance) name.lexeme hv⟩
  | none =>
    rw [assign_global]
    split
    · exact ⟨trivial, hm.define hm.global name.lexeme hv⟩
    · exact .refl hm

theorem StaysIn.inNewFrame {P : α → Prop} {body : Run α} {outer : Nat} (ho : region outer)
    {own : Bindings} (hb : ∀ name v, own.lookup name = some v → v.Within region)
    (h : body.StaysIn region P) : (inNewFrame outer own body).StaysIn region P := by
  intro m hm
  have entered := hm.entered ho hb
  rw [inNewFrame_apply]
  refine (h _ entered.confined).onMachine ?_ ?_
  · exact fun _ _ ends => ⟨ends.1, (entered.trans ends.2).restored hm.current⟩
  · exact fun _ moved => (entered.trans moved).restored hm.current

theorem StaysIn.inBlock {P : α → Prop} {body : Run α} (h : body.StaysIn region P) :
    (inBlock body).StaysIn region P :=
  fun m hm => StaysIn.inNewFrame hm.current (by simp) h m hm

end Run

-- ---------------------------------------------------------------------------
-- Runs
-- ---------------------------------------------------------------------------

open Run (StaysIn)

mutual

theorem Expr.evaluate_staysIn :
    ∀ (n : Nat) (e : Expr), (e.evaluate n).StaysIn region (·.Within region)
  | 0, _ => .unfinished
  | _ + 1, .literal value => .pure (Value.within_ofConstant value)
  | n + 1, .grouping inner => inner.evaluate_staysIn n
  | n + 1, .unary _ operand =>
    .bind (operand.evaluate_staysIn n) fun _ _ => .check fun _ => Value.within_unary
  | n + 1, .binary left _ right =>
    .bind (left.evaluate_staysIn n) fun _ _ =>
      .bind (right.evaluate_staysIn n) fun _ _ => .check fun _ => Value.within_binary
  | n + 1, .logical left operator right => by
    refine .bind (left.evaluate_staysIn n) fun value hv => ?_
    split
    · split
      · exact .pure hv
      · exact right.evaluate_staysIn n
    · split
      · exact right.evaluate_staysIn n
      · exact .pure hv
    · exact .fail _ _
  | _ + 1, .variable name depth => .read name depth
  | n + 1, .assign name value depth =>
    .bind (value.evaluate_staysIn n) fun _ hv => .bind (.assign name depth hv) fun _ _ => .pure hv
  | n + 1, .call callee paren arguments => by
    refine .bind (callee.evaluate_staysIn n) fun f hf => ?_
    refine .bind (Expr.evaluateList_staysIn n arguments) fun values hvs => ?_
    split
    · split
      · exact Callable.call_staysIn n _ values hf hvs
      · exact .fail _ _
    · exact .fail _ _

theorem Expr.evaluateList_staysIn :
    ∀ (n : Nat) (es : List Expr), (Expr.evaluateList n es).StaysIn region (∀ v ∈ ·, v.Within region)
  | 0, _ => .unfinished
  | _ + 1, [] => .pure (by simp)
  | n + 1, e :: rest =>
    .bind (e.evaluate_staysIn n) fun v hv => .bind (Expr.evaluateList_staysIn n rest) fun vs hvs =>
      .pure (List.forall_mem_cons.2 ⟨hv, hvs⟩)

theorem Callable.call_staysIn : ∀ (n : Nat) (c : Callable) (arguments : List Value),
    (Value.callable c).Within region → (∀ v ∈ arguments, v.Within region) →
    (c.call n arguments).StaysIn region (·.Within region)
  | 0, _, _, _, _ => .unfinished
  | _ + 1, ⟨_, .clock⟩, _, _, _ => .readClock
  | n + 1, ⟨_, .closure function frame⟩, arguments, hc, hvs => by
    have own : ∀ name v, (function.bindings arguments).lookup name = some v → v.Within region :=
      fun _ v hv => hvs v (Function.mem_of_lookup_bindings hv)
    have body := Stmt.executeList_staysIn n function.body
    exact .bind (.inNewFrame (hc frame rfl) own body) fun _ hv => .pure hv

theorem Stmt.execute_staysIn :
    ∀ (n : Nat) (t : Stmt), (t.execute n).StaysIn region (·.value.Within region)
  | 0, _ => .unfinished
  | n + 1, .expression value => .bind (value.evaluate_staysIn n) fun _ _ => .normal
  | n + 1, .print value =>
    .bind (value.evaluate_staysIn n) fun _ _ => .bind (.printLine _) fun _ _ => .normal
  | _ + 1, .variable _ none => .bind (.define _ Value.within_nil) fun _ _ => .normal
  | n + 1, .variable _ (some initializer) =>
    .bind (initializer.evaluate_staysIn n) fun _ hv => .bind (.define _ hv) fun _ _ => .normal
  | n + 1, .block body => .inBlock (Stmt.executeList_staysIn n body)
  | n + 1, .branch condition consequent alternative => by
    refine .bind (condition.evaluate_staysIn n) fun value _ => ?_
    split
    · exact consequent.execute_staysIn n
    · split
      · exact Stmt.execute_staysIn n _
      · exact .normal
  | n + 1, .loop condition body => by
    refine .bind (condition.evaluate_staysIn n) fun value _ => ?_
    split
    · refine .bind (body.execute_staysIn n) fun completion hv => ?_
      split
      · exact Stmt.execute_staysIn n _
      · exact .pure hv
    · exact .normal
  | _ + 1, .function .. =>
    .bind (.makeClosure _) fun _ hv => .bind (.define _ hv) fun _ _ => .normal
  | _ + 1, .return _ none => .pure Value.within_nil
  | n + 1, .return _ (some value) => .bind (value.evaluate_staysIn n) fun _ hv => .pure hv

theorem Stmt.executeList_staysIn :
    ∀ (n : Nat) (ts : List Stmt), (Stmt.executeList n ts).StaysIn region (·.value.Within region)
  | 0, _ => .unfinished
  | _ + 1, [] => .normal
  | n + 1, first :: rest => by
    refine .bind (first.execute_staysIn n) fun completion hv => ?_
    split
    · exact Stmt.executeList_staysIn n rest
    · exact .pure hv

end

-- ---------------------------------------------------------------------------
-- The region of what is in reach
-- ---------------------------------------------------------------------------

/-- What is in reach, and all frames that are not there yet. -/
def Heap.regionOf (h : Heap) (roots : Nat → Prop) (frame : Nat) : Prop :=
  h.frames.size ≤ frame ∨ h.InReach roots frame

theorem Heap.closed_regionOf (h : Heap) (roots : Nat → Prop) : h.Closed (h.regionOf roots) where
  enclosing {frame outer} hr he :=
    match hr with
    | .inl new => absurd (Heap.lt_size_of_enclosing? he) (Nat.not_lt_of_le new)
    | .inr reached => .inr (.enclosing reached he)
  bound {frame name v} hr hb inner hv := by
    rcases hr with new | reached
    · rw [Heap.own?_of_size_le new] at hb
      cases hb
    · exact .inr (.captured reached hb hv)

theorem Machine.confined_regionOf {m : Machine} {roots : Nat → Prop} (hg : roots Heap.globalFrame)
    (hc : roots m.current) : m.Confined (m.heap.regionOf roots) :=
  ⟨m.heap.closed_regionOf roots, .inr (.root hg), fun _ => .inl, .inr (.root hc)⟩

theorem Heap.Closed.isolates {h h' : Heap} {roots roots' : Nat → Prop}
    (closed : h'.Closed (h.regionOf roots))
    (outside : ∀ frame, ¬ h.regionOf roots frame → h'.bindings frame = h.bindings frame)
    (hr : ∀ frame, roots' frame → h.regionOf roots frame) : h.Isolates roots h' roots' where
  unchanged small far := outside _ fun near => near.elim (Nat.not_le_of_lt small) far
  reach small near := (closed.inReach hr near).elim (absurd · (Nat.not_le_of_lt small)) id

theorem Callable.call_current (n : Nat) (c : Callable) (arguments : List Value) (m : Machine)
    (frame : Nat) : c.call n arguments m =
      (c.call n arguments { m with current := frame }).onMachine
      ({ · with current := m.current }) := by
  obtain ⟨identity, callee⟩ := c
  cases n with
  | zero => rfl
  | succ n =>
    cases callee with
    | clock => rfl
    | closure function captured =>
      have same : ({ m with current := frame } : Machine).entered captured
          (function.bindings arguments) = m.entered captured (function.bindings arguments) := rfl
      rw [Callable.call]
      dsimp only
      rw [Run.bind_apply, Run.bind_apply, Run.inNewFrame_apply, Run.inNewFrame_apply, same]
      cases Stmt.executeList n
        function.body (m.entered captured (function.bindings arguments)) <;> rfl

theorem Stmt.execute_isolates (n : Nat) (t : Stmt) (m : Machine) :
    (t.execute n m).Ends
      (fun c m' => m.heap.Isolates m.Root m'.heap
        fun frame => m'.Root frame ∨ c.value.captured? = some frame)
      fun m' => m.heap.Isolates m.Root m'.heap m'.Root := by
  have confined : m.Confined (m.heap.regionOf m.Root) :=
    Machine.confined_regionOf (.inr rfl) (.inl rfl)
  have near {m' : Machine} (hm' : m'.Confined (m.heap.regionOf m.Root)) :
      ∀ frame, m'.Root frame → m.heap.regionOf m.Root frame := by
    rintro frame (rfl | rfl)
    · exact hm'.current
    · exact hm'.global
  refine (t.execute_staysIn n m confined).mono ?_ ?_
  · rintro c m' ⟨hv, moved⟩
    exact moved.confined.heap.isolates moved.outside fun frame hf =>
      hf.elim (near moved.confined frame) (hv frame)
  · intro m' moved
    exact moved.confined.heap.isolates moved.outside (near moved.confined)

theorem Callable.call_isolates (n : Nat) (c : Callable) (arguments : List Value) (m : Machine) :
    (c.call n arguments m).Ends
      (fun v m' => m.heap.Isolates (Value.Root (.callable c :: arguments)) m'.heap
        (Value.Root (v :: .callable c :: arguments)))
      fun m' => m.heap.Isolates (Value.Root (.callable c :: arguments)) m'.heap
        (Value.Root (.callable c :: arguments)) := by
  let held := Value.callable c :: arguments
  let region := m.heap.regionOf (Value.Root held)
  -- the caller's frame need not be in reach of the function, so the call is made from the global
  -- one
  let start : Machine := { m with current := Heap.globalFrame }
  have confined : start.Confined region :=
    Machine.confined_regionOf (m := start) (.inl rfl) (.inl rfl)
  have near : ∀ frame, Value.Root held frame → region frame := fun _ hr => .inr (.root hr)
  have within : ∀ v ∈ held, v.Within region := fun v hv frame hf => near frame (.inr ⟨v, hv, hf⟩)
  obtain ⟨called, given⟩ := List.forall_mem_cons.1 within
  rw [c.call_current n arguments m Heap.globalFrame]
  refine (c.call_staysIn n arguments called given start confined).onMachine ?_ ?_
  · rintro v m' ⟨hv, moved⟩
    refine moved.confined.heap.isolates moved.outside ?_
    rintro frame (global | ⟨w, hw, hf⟩)
    · exact near frame (.inl global)
    · exact List.forall_mem_cons.2 ⟨hv, within⟩ w hw frame hf
  · exact fun m' moved => moved.confined.heap.isolates moved.outside near

/-- Of the frames that the other function can come to, those alone have changed that the first
values can come to as well. -/
def Heap.ChangedInCommon (h : Heap) (values : List Value) (other : Callable) (h' : Heap) : Prop :=
  ∀ frame, frame < h.frames.size → h.InReach (Value.Root [.callable other]) frame →
    h'.bindings frame ≠ h.bindings frame → h.InReach (Value.Root values) frame

theorem Heap.Isolates.changedInCommon {h h' : Heap} {values : List Value} {roots' : Nat → Prop}
    (isolates : h.Isolates (Value.Root values) h' roots') (other : Callable) :
    h.ChangedInCommon values other h' := by
  intro frame small _ changed
  exact Classical.byContradiction fun far => changed (isolates.unchanged small far)

/-- A statement that ends, by itself, by a `return` or by an error, leaves every frame that was out
of reach with the bindings it had, and out of reach, also of a value that it returns. A call does
the same with the frames out of reach of the function and its arguments. So what a call changes of
another function's frames is in reach of both. -/
theorem frames_out_of_reach_stay (n : Nat) (m : Machine) :
    (∀ t : Stmt, (t.execute n m).Ends
      (fun c m' => m.heap.Isolates m.Root m'.heap
        fun frame => m'.Root frame ∨ c.value.captured? = some frame)
      fun m' => m.heap.Isolates m.Root m'.heap m'.Root) ∧
    (∀ (called : Callable) (arguments : List Value),
      let held := .callable called :: arguments
      (called.call n arguments m).Ends
        (fun v m' => m.heap.Isolates (Value.Root held) m'.heap (Value.Root (v :: held)))
        fun m' => m.heap.Isolates (Value.Root held) m'.heap (Value.Root held)) ∧
    ∀ (called other : Callable) (arguments : List Value),
      let held := .callable called :: arguments
      (called.call n arguments m).Ends
        (fun _ m' => m.heap.ChangedInCommon held other m'.heap)
        fun m' => m.heap.ChangedInCommon held other m'.heap := by
  refine ⟨fun t => t.execute_isolates n m, fun called arguments => ?_,
    fun called other arguments => ?_⟩
  · exact called.call_isolates n arguments m
  · exact (called.call_isolates n arguments m).mono (fun _ _ h => h.changedInCommon other)
      fun _ h => h.changedInCommon other

end Lox
