import Lox.Proofs.Machine.Soundness

/-!
# Frames stay in order

A machine is well formed if every frame lies in an older one, the global frame alone lies in none,
and the current frame and the frames that functions captured are there. Every part of a program
keeps it so, bound or not and however it ends: no frame loses its enclosing frame or a name, the
current frame is current again, and what was printed stays printed. Between programs the global
frame is current.
-/

namespace Lox

-- ---------------------------------------------------------------------------
-- Well-formed heaps and machines
-- ---------------------------------------------------------------------------

/-- The frame that a function captured is there. -/
def Value.Anchored (h : Heap) : Value → Prop
  | .callable ⟨_, .closure _ frame⟩ => frame < h.frames.size
  | _ => True

structure Heap.WellFormed (h : Heap) : Prop where
  global : Heap.globalFrame < h.frames.size
  older : ∀ {frame outer : Nat} {f : Frame},
    h.frames[frame]? = some f → f.enclosing = some outer → outer < frame
  root : ∀ {frame : Nat} {f : Frame},
    h.frames[frame]? = some f → (f.enclosing = none ↔ frame = Heap.globalFrame)
  anchored : ∀ {frame : Nat} {name : String} {v : Value}, h.own? frame name = some v → v.Anchored h

structure Machine.WellFormed (m : Machine) : Prop where
  heap : m.heap.WellFormed
  current : m.current < m.heap.frames.size

/-- What a run leaves of a machine: the current frame, every frame where it lies and with the names
it binds, and all that was printed. -/
structure Machine.Keeps (m m' : Machine) : Prop where
  current : m'.current = m.current
  frames : ∀ {frame : Nat} {f : Frame}, m.heap.frames[frame]? = some f →
    ∃ f' : Frame, m'.heap.frames[frame]? = some f' ∧ f'.enclosing = f.enclosing ∧
      ∀ name, (f.bindings.lookup name).isSome → (f'.bindings.lookup name).isSome
  output : ∃ text, m'.output = m.output.write text

namespace Value

theorem Anchored.mono {h h' : Heap} (hs : h.frames.size ≤ h'.frames.size) {v : Value}
    (hv : v.Anchored h) : v.Anchored h' := by
  unfold Anchored at hv ⊢
  split
  · exact Nat.lt_of_lt_of_le hv hs
  · trivial

theorem anchored_ofConstant (h : Heap) (c : Constant) : (ofConstant c : Value).Anchored h := by
  cases c <;> trivial

theorem anchored_unary {h : Heap} {operator : Kind} {a v : Value}
    (hv : unary operator a = .ok v) : v.Anchored h := by
  unfold unary at hv
  split at hv <;> cases hv <;> trivial

theorem anchored_binary {h : Heap} {operator : Kind} {a b v : Value}
    (hv : binary operator a b = .ok v) : v.Anchored h := by
  unfold binary plus onNumbers at hv
  repeat' split at hv
  all_goals cases hv <;> trivial

end Value

namespace Heap

theorem WellFormed.enclosing?_eq {h : Heap} (hw : h.WellFormed) {frame : Nat} {f : Frame}
    (hf : h.frames[frame]? = some f) : h.enclosing? frame = f.enclosing :=
  enclosing?_of_older hf fun _ => hw.older hf

theorem WellFormed.define {h : Heap} (hw : h.WellFormed) (frame : Nat) (name : String) {v : Value}
    (hv : v.Anchored h) : (h.define frame name v).WellFormed := by
  have same_size : (h.define frame name v).frames.size = h.frames.size := size_define ..
  have link {other : Nat} {f : Frame} (hf : (h.define frame name v).frames[other]? = some f) :
      ∃ f₀, h.frames[other]? = some f₀ ∧ f.enclosing = f₀.enclosing := by
    simp only [Heap.define, Array.getElem?_modify] at hf
    split at hf
    · obtain ⟨f₀, hf₀, rfl⟩ := Option.map_eq_some_iff.1 hf
      exact ⟨f₀, hf₀, rfl⟩
    · exact ⟨f, hf, rfl⟩
  refine ⟨same_size ▸ hw.global, fun hf he => ?_, fun hf => ?_, fun {other key w} hb => ?_⟩
  · obtain ⟨f₀, hf₀, same⟩ := link hf
    exact hw.older hf₀ (same ▸ he)
  · obtain ⟨f₀, hf₀, same⟩ := link hf
    rw [same]
    exact hw.root hf₀
  · refine Value.Anchored.mono (Nat.le_of_eq same_size.symm) ?_
    rw [own?_define] at hb
    split at hb
    · cases hb
      exact hv
    · exact hw.anchored hb

theorem WellFormed.push {h : Heap} (hw : h.WellFormed) {outer : Nat} (ho : outer < h.frames.size)
    {own : Bindings} (hb : ∀ name v, own.lookup name = some v → v.Anchored h) :
    (h.push outer own).2.WellFormed := by
  have larger : h.frames.size ≤ (h.push outer own).2.frames.size := by simp
  have entry {frame : Nat} {f : Frame} (hf : (h.push outer own).2.frames[frame]? = some f) :
      frame = h.frames.size ∧ f = ⟨some outer, own⟩ ∨ h.frames[frame]? = some f := by
    simp only [Heap.push, Array.getElem?_push] at hf
    split at hf
    · next new =>
      cases hf
      exact .inl ⟨new, rfl⟩
    · exact .inr hf
  refine ⟨Nat.lt_of_lt_of_le hw.global larger, fun hf he => ?_, fun hf => ?_, fun hv => ?_⟩
  · rcases entry hf with ⟨rfl, rfl⟩ | hf
    · cases he
      exact ho
    · exact hw.older hf he
  · rcases entry hf with ⟨rfl, rfl⟩ | hf
    · simpa using Nat.ne_of_gt hw.global
    · exact hw.root hf
  · refine Value.Anchored.mono larger ?_
    rw [own?_push] at hv
    split at hv
    · exact hb _ _ hv
    · exact hw.anchored hv

end Heap

namespace Machine

theorem WellFormed.define {m : Machine} (hm : m.WellFormed) (frame : Nat) (name : String)
    {v : Value} (hv : v.Anchored m.heap) :
    ({ m with heap := m.heap.define frame name v } : Machine).WellFormed :=
  ⟨hm.heap.define frame name hv, by simpa using hm.current⟩

theorem WellFormed.entered {m : Machine} (hm : m.WellFormed) {outer : Nat}
    (ho : outer < m.heap.frames.size) {own : Bindings}
    (hb : ∀ name v, own.lookup name = some v → v.Anchored m.heap) :
    (m.entered outer own).WellFormed :=
  ⟨hm.heap.push ho hb, by simp [Machine.entered]⟩

theorem WellFormed.keeps {m m' : Machine} (hm : m.WellFormed) (hm' : m'.WellFormed)
    (hg : m.Grows m') : m.Keeps m' := by
  refine ⟨hg.current, fun {frame f} hf => ?_, hg.output⟩
  have small : frame < m.heap.frames.size := (Array.getElem?_eq_some_iff.1 hf).1
  obtain ⟨f', hf'⟩ : ∃ f', m'.heap.frames[frame]? = some f' :=
    ⟨_, Array.getElem?_eq_getElem (Nat.lt_of_lt_of_le small hg.heap.size)⟩
  refine ⟨f', hf', ?_, fun name hn => ?_⟩
  · have link := hg.heap.enclosing frame small
    rwa [hm.heap.enclosing?_eq hf, hm'.heap.enclosing?_eq hf'] at link
  · have bound := hg.heap.bound frame name
    simp only [Heap.own?, Heap.bindings, hf, hf'] at bound
    exact bound hn

end Machine

-- ---------------------------------------------------------------------------
-- Steps
-- ---------------------------------------------------------------------------

def OrderlyValue (v : Value) (m : Machine) : Prop :=
  m.WellFormed ∧ v.Anchored m.heap

def OrderlyValues (vs : List Value) (m : Machine) : Prop :=
  m.WellFormed ∧ ∀ v ∈ vs, v.Anchored m.heap

def OrderlyCompletion (c : Completion) (m : Machine) : Prop :=
  m.WellFormed ∧ c.value.Anchored m.heap

namespace Run

theorem read_orderly {m : Machine} (hm : m.WellFormed) (name : Token) (depth : Option Nat) :
    (Run.read name depth m).Ends OrderlyValue Machine.WellFormed := by
  cases h : Run.read name depth m with
  | done v m' =>
    obtain ⟨rfl, frame, hv⟩ := Run.read_eq_done h
    exact ⟨hm, hm.heap.anchored hv⟩
  | failed e m' =>
    obtain ⟨rfl, -⟩ := Run.read_eq_failed h
    exact hm
  | unfinished => trivial

theorem assign_orderly {m : Machine} (hm : m.WellFormed) (name : Token) (depth : Option Nat)
    {v : Value} (hv : v.Anchored m.heap) :
    (Run.assign name depth v m).Ends (fun _ m' => m'.WellFormed) Machine.WellFormed := by
  rcases Run.assign_cases name m depth v with ⟨frame, written⟩ | ⟨-, missed⟩
  · rw [written]
    exact hm.define _ _ hv
  · rw [missed]
    exact hm

theorem check_orderly {m : Machine} (hm : m.WellFormed) {line : Nat} {r : Except RuntimeCause Value}
    (hr : ∀ v, r = .ok v → v.Anchored m.heap) :
    (Run.check line r m).Ends OrderlyValue Machine.WellFormed := by
  cases r with
  | ok v => exact ⟨hm, hr v rfl⟩
  | error cause => exact hm

theorem inNewFrame_orderly {m : Machine} (hm : m.WellFormed) {outer : Nat}
    (ho : outer < m.heap.frames.size) {own : Bindings}
    (hb : ∀ name v, own.lookup name = some v → v.Anchored m.heap) {body : Run Completion}
    (hg : body.Grows) (hbody : ∀ m, m.WellFormed →
      (body m).Ends OrderlyCompletion Machine.WellFormed) :
    (inNewFrame outer own body m).Ends OrderlyCompletion Machine.WellFormed := by
  have left {m' : Machine} (grown : (m.entered outer own).Grows m') (hm' : m'.WellFormed) :
      ({ m' with current := m.current } : Machine).WellFormed :=
    ⟨hm'.heap, Nat.lt_of_lt_of_le hm.current
      (Nat.le_trans (Heap.Grows.push ..).size grown.heap.size)⟩
  have orderly := hbody (m.entered outer own) (hm.entered ho hb)
  have grows := hg (m.entered outer own)
  rw [inNewFrame_apply]
  revert orderly grows
  cases body (m.entered outer own) with
  | done c m' => exact fun orderly grown => ⟨left grown orderly.1, orderly.2⟩
  | failed e m' => exact fun orderly grown => left grown orderly
  | unfinished => exact fun _ _ => trivial

end Run

-- ---------------------------------------------------------------------------
-- Runs
-- ---------------------------------------------------------------------------

mutual

theorem Expr.evaluate_orderly : ∀ (n : Nat) (e : Expr) {m : Machine}, m.WellFormed →
    (e.evaluate n m).Ends OrderlyValue Machine.WellFormed
  | 0, _, _, _ => trivial
  | _ + 1, .literal value, _, hm => ⟨hm, Value.anchored_ofConstant _ value⟩
  | n + 1, .grouping inner, _, hm => inner.evaluate_orderly n hm
  | n + 1, .unary operator operand, _, hm => by
    refine .bind (operand.evaluate_orderly n hm) ?_
    rintro a m' - ⟨hm', -⟩
    exact Run.check_orderly hm' fun v => Value.anchored_unary
  | n + 1, .binary left operator right, _, hm => by
    refine .bind (left.evaluate_orderly n hm) ?_
    rintro a m₁ - ⟨hm₁, -⟩
    refine .bind (right.evaluate_orderly n hm₁) ?_
    rintro b m₂ - ⟨hm₂, -⟩
    exact Run.check_orderly hm₂ fun v => Value.anchored_binary
  | n + 1, .logical left operator right, _, hm => by
    refine .bind (left.evaluate_orderly n hm) ?_
    rintro a m' - ⟨hm', ha⟩
    generalize operator.kind = kind
    split
    · split
      · exact ⟨hm', ha⟩
      · exact right.evaluate_orderly n hm'
    · split
      · exact right.evaluate_orderly n hm'
      · exact ⟨hm', ha⟩
    · exact hm'
  | _ + 1, .variable name depth, _, hm => Run.read_orderly hm name depth
  | n + 1, .assign name value depth, _, hm => by
    refine .bind (value.evaluate_orderly n hm) ?_
    rintro v m' - ⟨hm', hv⟩
    refine .bind (Run.assign_orderly hm' name depth hv) ?_
    intro _ m'' hw hm''
    exact ⟨hm'', hv.mono ((Run.Grows.assign name depth v).done hw).heap.size⟩
  | n + 1, .call callee paren arguments, _, hm => by
    refine .bind (callee.evaluate_orderly n hm) ?_
    rintro f m₁ - ⟨hm₁, hf⟩
    refine .bind (Expr.evaluateList_orderly n arguments hm₁) ?_
    rintro values m₂ hv ⟨hm₂, hvs⟩
    have hg := (Expr.evaluateList_grows n arguments).done hv
    cases f with
    | callable c =>
      dsimp only
      split
      · exact c.call_orderly n values hm₂ (hf.mono hg.heap.size) hvs
      · exact hm₂
    | _ => exact hm₂

theorem Expr.evaluateList_orderly : ∀ (n : Nat) (es : List Expr) {m : Machine}, m.WellFormed →
    (Expr.evaluateList n es m).Ends OrderlyValues Machine.WellFormed
  | 0, _, _, _ => trivial
  | _ + 1, [], _, hm => ⟨hm, by simp⟩
  | n + 1, e :: rest, _, hm => by
    refine .bind (e.evaluate_orderly n hm) ?_
    rintro v m₁ - ⟨hm₁, hv⟩
    refine .bind (Expr.evaluateList_orderly n rest hm₁) ?_
    rintro vs m₂ hr ⟨hm₂, hvs⟩
    have hg := (Expr.evaluateList_grows n rest).done hr
    refine ⟨hm₂, fun w hw => ?_⟩
    rcases List.mem_cons.1 hw with rfl | hw
    · exact hv.mono hg.heap.size
    · exact hvs w hw

theorem Callable.call_orderly : ∀ (n : Nat) (c : Callable) (arguments : List Value) {m : Machine},
    m.WellFormed → (Value.callable c).Anchored m.heap → (∀ v ∈ arguments, v.Anchored m.heap) →
    (c.call n arguments m).Ends OrderlyValue Machine.WellFormed
  | 0, _, _, _, _, _, _ => trivial
  | _ + 1, ⟨_, .clock⟩, _, _, hm, _, _ => ⟨⟨hm.heap, hm.current⟩, trivial⟩
  | n + 1, ⟨_, .closure function frame⟩, arguments, m, hm, hc, hvs => by
    refine .bind (Q := OrderlyCompletion) ?_ fun completion m' _ h => h
    exact Run.inNewFrame_orderly hm hc (fun _ v hv => hvs v (Function.mem_of_lookup_bindings hv))
      (Stmt.executeList_grows n function.body) fun _ => Stmt.executeList_orderly n function.body

theorem Stmt.execute_orderly : ∀ (n : Nat) (t : Stmt) {m : Machine}, m.WellFormed →
    (t.execute n m).Ends OrderlyCompletion Machine.WellFormed
  | 0, _, _, _ => trivial
  | n + 1, .expression value, _, hm => by
    refine .bind (value.evaluate_orderly n hm) ?_
    rintro v m' - ⟨hm', -⟩
    exact ⟨hm', trivial⟩
  | n + 1, .print value, _, hm => by
    refine .bind (value.evaluate_orderly n hm) ?_
    rintro v m' - ⟨hm', -⟩
    exact ⟨⟨hm'.heap, hm'.current⟩, trivial⟩
  | _ + 1, .variable name none, m, hm => ⟨hm.define m.current name.lexeme trivial, trivial⟩
  | n + 1, .variable name (some e), _, hm => by
    refine .bind (e.evaluate_orderly n hm) ?_
    rintro v m' - ⟨hm', hv⟩
    exact ⟨hm'.define m'.current name.lexeme hv, trivial⟩
  | n + 1, .block body, _, hm =>
    Run.inNewFrame_orderly hm hm.current (by simp) (Stmt.executeList_grows n body) fun _ =>
      Stmt.executeList_orderly n body
  | n + 1, .branch condition consequent alternative, _, hm => by
    refine .bind (condition.evaluate_orderly n hm) ?_
    rintro v m' - ⟨hm', -⟩
    split
    · exact consequent.execute_orderly n hm'
    · cases alternative with
      | none => exact ⟨hm', trivial⟩
      | some other => exact other.execute_orderly n hm'
  | n + 1, .loop condition body, _, hm => by
    refine .bind (condition.evaluate_orderly n hm) ?_
    rintro v m₁ - ⟨hm₁, -⟩
    split
    · refine .bind (body.execute_orderly n hm₁) ?_
      rintro completion m₂ - ⟨hm₂, hv⟩
      cases completion with
      | normal => exact Stmt.execute_orderly n (.loop condition body) hm₂
      | returned value => exact ⟨hm₂, hv⟩
    · exact ⟨hm₁, trivial⟩
  | _ + 1, .function name parameters body, m, hm => by
    -- The function captures the current frame, which is there.
    have defined := hm.define m.current name.lexeme (v := .callable
      ⟨m.nextIdentity, .closure ⟨name, parameters, body⟩ m.current⟩) hm.current
    exact ⟨⟨defined.heap, defined.current⟩, trivial⟩
  | _ + 1, .return _ none, _, hm => ⟨hm, trivial⟩
  | n + 1, .return _ (some value), _, hm =>
    .bind (value.evaluate_orderly n hm) fun _ _ _ h => h

theorem Stmt.executeList_orderly : ∀ (n : Nat) (ts : List Stmt) {m : Machine}, m.WellFormed →
    (Stmt.executeList n ts m).Ends OrderlyCompletion Machine.WellFormed
  | 0, _, _, _ => trivial
  | _ + 1, [], _, hm => ⟨hm, trivial⟩
  | n + 1, first :: rest, _, hm => by
    refine .bind (first.execute_orderly n hm) ?_
    rintro completion m' - ⟨hm', hv⟩
    cases completion with
    | normal => exact Stmt.executeList_orderly n rest hm'
    | returned value => exact ⟨hm', hv⟩

end

theorem Stmt.runProgram_orderly (n : Nat) (ts : List Stmt) {m : Machine} (hm : m.WellFormed) :
    (Stmt.runProgram n ts m).Ends (fun _ m' => m'.WellFormed) Machine.WellFormed := by
  induction ts generalizing m with
  | nil => exact hm
  | cons first rest ih =>
    refine .bind (first.execute_orderly n hm) ?_
    rintro completion m' - ⟨hm', -⟩
    exact ih hm'

-- ---------------------------------------------------------------------------
-- What every run keeps
-- ---------------------------------------------------------------------------

/-- A well-formed machine that a run from `m` may leave. -/
def Machine.LeftBy (m m' : Machine) : Prop :=
  m'.WellFormed ∧ m.Keeps m'

theorem Run.Grows.leftBy {α : Type} {x : Run α} {m : Machine} {Q : α → Machine → Prop}
    (hg : x.Grows) (hm : m.WellFormed)
    (hx : (x m).Ends (fun a m' => m'.WellFormed ∧ Q a m') Machine.WellFormed) :
    (x m).Ends (fun a m' => m.LeftBy m' ∧ Q a m') m.LeftBy := by
  have grows := hg m
  revert hx grows
  cases x m with
  | done a m' => exact fun ends grown => ⟨⟨ends.1, hm.keeps ends.1 grown⟩, ends.2⟩
  | failed e m' => exact fun ends grown => ⟨ends, hm.keeps ends grown⟩
  | unfinished => exact fun _ _ => trivial

/-- A machine that is new, has run a program of any statements to its end or to an error, or has
given away its output. -/
inductive Machine.BetweenPrograms : Machine → Prop
  | initial (output : Output) (reading : Nat → Float) : BetweenPrograms (.initial output reading)
  | done {m m' : Machine} {n : Nat} {program : List Stmt} :
    BetweenPrograms m → Stmt.runProgram n program m = .done () m' → BetweenPrograms m'
  | failed {m m' : Machine} {n : Nat} {program : List Stmt} {error : RuntimeError} :
    BetweenPrograms m → Stmt.runProgram n program m = .failed error m' → BetweenPrograms m'
  | taken {m : Machine} :
    BetweenPrograms m → BetweenPrograms { m with output := m.output.take.2 }

theorem Heap.wellFormed_initial : Heap.initial.WellFormed where
  global := Nat.one_pos
  older {frame outer f} hf he := by
    obtain rfl : f = ⟨none, []⟩ := by
      cases frame with
      | zero => simpa [Heap.initial] using hf.symm
      | succ frame => simp [Heap.initial] at hf
    cases he
  root {frame f} hf := by
    cases frame with
    | zero =>
      obtain rfl : f = ⟨none, []⟩ := by simpa [Heap.initial] using hf.symm
      simp [Heap.globalFrame]
    | succ frame => simp [Heap.initial] at hf
  anchored {frame name v} hv := by
    cases frame with
    | zero => cases hv
    | succ frame =>
      rw [Heap.own?_of_size_le (Nat.le_add_left 1 frame)] at hv
      cases hv

theorem Machine.wellFormed_initial (output : Output) (reading : Nat → Float) :
    (Machine.initial output reading).WellFormed :=
  ⟨Heap.wellFormed_initial.define _ _ trivial, Nat.one_pos⟩

theorem Stmt.runProgram_leftBy (n : Nat) (program : List Stmt) {m : Machine} (hm : m.WellFormed) :
    (Stmt.runProgram n program m).Ends (fun _ => m.LeftBy) m.LeftBy := by
  have orderly := (Stmt.runProgram_orderly n program hm).mono
    (R := fun _ m' => m'.WellFormed ∧ True) (fun _ _ h => ⟨h, trivial⟩) (fun _ h => h)
  exact ((Stmt.runProgram_grows n program).leftBy hm orderly).mono (fun _ _ h => h.1) fun _ h => h

theorem Machine.BetweenPrograms.rests {m : Machine} (h : m.BetweenPrograms) :
    m.WellFormed ∧ m.current = Heap.globalFrame := by
  induction h with
  | initial output reading => exact ⟨Machine.wellFormed_initial output reading, rfl⟩
  | @done m m' n program _ hr ih =>
    have ends := Stmt.runProgram_leftBy n program ih.1
    rw [hr] at ends
    exact ⟨ends.1, ends.2.current.trans ih.2⟩
  | @failed m m' n program error _ hr ih =>
    have ends := Stmt.runProgram_leftBy n program ih.1
    rw [hr] at ends
    exact ⟨ends.1, ends.2.current.trans ih.2⟩
  | taken _ ih => exact ⟨⟨ih.1.heap, ih.1.current⟩, ih.2⟩

/-- From a well-formed machine, an expression or a statement that ends, by a value, a `return` or an
error, leaves a well-formed machine: the same frame is current, every frame has the link and at
least the names it had, and the output has only been added to. Between programs the global frame is
current. -/
theorem frames_stay_in_order {m : Machine} (hm : m.WellFormed) (n : Nat) :
    (∀ e : Expr, (e.evaluate n m).Ends (fun v m' => m.LeftBy m' ∧ v.Anchored m'.heap) m.LeftBy) ∧
    (∀ t : Stmt,
      (t.execute n m).Ends (fun c m' => m.LeftBy m' ∧ c.value.Anchored m'.heap) m.LeftBy) ∧
    (∀ program : List Stmt,
      (Stmt.runProgram n program m).Ends (fun _ => m.LeftBy) m.LeftBy) ∧
    ∀ rested : Machine, rested.BetweenPrograms →
      rested.WellFormed ∧ rested.current = Heap.globalFrame := by
  refine ⟨fun e => ?_, fun t => ?_, fun program => ?_, fun rested hr => hr.rests⟩
  · exact (e.evaluate_grows n).leftBy hm (e.evaluate_orderly n hm)
  · exact (t.execute_grows n).leftBy hm (t.execute_orderly n hm)
  · exact Stmt.runProgram_leftBy n program hm

/-- A block that declares a function and calls it; the function prints and then negates `nil`. -/
def failsInCall : Stmt :=
  let name : Token := ⟨.identifier, "f", none, 1⟩
  .block [
    .function name [] [
      .print (.literal (.string "in f")),
      .expression (.unary ⟨.minus, "-", none, 1⟩ (.literal .nil))],
    .expression (.call (.variable name (some 0)) ⟨.rightParen, ")", none, 2⟩ [])]

theorem frames_stay_in_order_failing_call :
    let m := Machine.initial (.buffer "") fun _ => 0
    ∃ error m', failsInCall.execute 12 m = .failed error m' ∧ m'.heap.frames.size = 3 ∧
      m'.output = .buffer "in f\n" ∧ m'.WellFormed ∧ m.Keeps m' := by
  intro m
  have ends := (frames_stay_in_order (Machine.wellFormed_initial (.buffer "") fun _ => 0) 12).2.1
    failsInCall
  have fails : ∃ error m', failsInCall.execute 12 m = .failed error m' ∧
      m'.heap.frames.size = 3 ∧ m'.output = .buffer "in f\n" := by
    refine ⟨_, _, rfl, rfl, ?_⟩
    decide
  obtain ⟨error, m', failed, frames, output⟩ := fails
  rw [failed] at ends
  exact ⟨error, m', failed, frames, output, ends⟩

end Lox
