import Lox.Proofs.Loop.Twins

/-!
# The same code on twins

A part of a program on a machine and the same part on a twin of it go alike: they end with the same
error or the same value, and leave machines that are twins again. The two parts may stand in scopes
that differ by spare ones (`Beside`), and either machine may enter a block that the other does not.
-/

namespace Lox

theorem Machine.Grows.leave {m m' : Machine} {frame : Nat} {own : Bindings}
    (hg : (m.entered frame own).Grows m') : m.Grows { m' with current := m.current } :=
  ⟨rfl, (Heap.Grows.push ..).trans hg.heap, hg.output⟩

theorem Outcome.onMachine_id {α : Type} (o : Outcome α) : o.onMachine id = o := by
  cases o <;> rfl

end Lox

namespace Lox.Loop

variable {α β γ δ : Type}

-- ---------------------------------------------------------------------------
-- Outcomes
-- ---------------------------------------------------------------------------

/-- Two outcomes of one kind: `Q` for values and the machines they come with, `E` for the machines
that an error leaves, which is the same error. -/
def Agree (Q : α → Machine → β → Machine → Prop) (E : Machine → Machine → Prop) :
    Outcome α → Outcome β → Prop
  | .done a m, .done b m' => Q a m b m'
  | .failed e m, .failed e' m' => e = e' ∧ E m m'
  | .unfinished, .unfinished => True
  | _, _ => False

structure Onward (μ : Matching) (m m' : Machine) (μ₁ : Matching) (m₁ m₁' : Machine) : Prop where
  extended : μ.Extends μ₁
  grows : m.Grows m₁
  grows' : m'.Grows m₁'
  twins : Twins μ₁ m₁ m₁'

abbrev Likeness (α β : Type) := Matching → Heap → Heap → α → β → Prop

/-- Two outcomes, of parts that were run from two machines, with values that `R` relates. -/
def Alike (μ : Matching) (R : Likeness α β) (m m' : Machine) : Outcome α → Outcome β → Prop :=
  Agree (fun a m₁ b m₁' => ∃ μ₁, Onward μ m m' μ₁ m₁ m₁' ∧ R μ₁ m₁.heap m₁'.heap a b)
    (fun m₁ m₁' => ∃ μ₁, Onward μ m m' μ₁ m₁ m₁')

theorem Agree.mono {Q Q' : α → Machine → β → Machine → Prop} {E E' : Machine → Machine → Prop}
    {o : Outcome α} {o' : Outcome β} (h : Agree Q E o o')
    (hQ : ∀ a m b m', Q a m b m' → Q' a m b m') (hE : ∀ m m', E m m' → E' m m') :
    Agree Q' E' o o' := by
  cases o <;> cases o'
  case done.done => exact hQ _ _ _ _ h
  case failed.failed => exact ⟨h.1, hE _ _ h.2⟩
  case unfinished.unfinished => trivial
  all_goals exact h.elim

theorem Agree.bind {Q : α → Machine → β → Machine → Prop} {Q' : γ → Machine → δ → Machine → Prop}
    {E : Machine → Machine → Prop} {x : Run α} {y : Run β} {f : α → Run γ} {g : β → Run δ}
    {m m' : Machine} (hx : Agree Q E (x m) (y m'))
    (hf : ∀ a m₁ b m₁', Q a m₁ b m₁' → Agree Q' E (f a m₁) (g b m₁')) :
    Agree Q' E ((x >>= f) m) ((y >>= g) m') := by
  rw [Run.bind_apply, Run.bind_apply]
  cases hm : x m <;> cases hm' : y m' <;> rw [hm, hm'] at hx
  case done.done => exact hf _ _ _ _ hx
  case failed.failed => exact hx
  case unfinished.unfinished => trivial
  all_goals exact hx.elim

theorem Agree.onMachine {Q Q' : α → Machine → β → Machine → Prop} {E E' : Machine → Machine → Prop}
    {o : Outcome α} {o' : Outcome β} (change change' : Machine → Machine) (h : Agree Q E o o')
    (hQ : ∀ a m b m', Q a m b m' → Q' a (change m) b (change' m'))
    (hE : ∀ m m', E m m' → E' (change m) (change' m')) :
    Agree Q' E' (o.onMachine change) (o'.onMachine change') := by
  cases o <;> cases o'
  case done.done => exact hQ _ _ _ _ h
  case failed.failed => exact ⟨h.1, hE _ _ h.2⟩
  case unfinished.unfinished => trivial
  all_goals exact h.elim

section
variable {μ μ₁ μ₂ : Matching} {m m₁ m₂ m' m₁' m₂' : Machine} {R : Likeness α β} {S : Likeness γ δ}

theorem Onward.refl (ht : Twins μ m m') : Onward μ m m' μ m m' :=
  ⟨.refl μ, .refl m, .refl m', ht⟩

theorem Onward.trans (h : Onward μ m m' μ₁ m₁ m₁') (h' : Onward μ₁ m₁ m₁' μ₂ m₂ m₂') :
    Onward μ m m' μ₂ m₂ m₂' :=
  ⟨h.extended.trans h'.extended, h.grows.trans h'.grows, h.grows'.trans h'.grows', h'.twins⟩

theorem Onward.same (ho : Onward μ m m' μ₁ m₁ m₁') {v w : Value} (hs : Same μ m.heap m'.heap v w) :
    Same μ₁ m₁.heap m₁'.heap v w :=
  hs.mono ho.grows.heap ho.grows'.heap ho.extended

theorem Alike.pure (ht : Twins μ m m') {a : α} {b : β} (hr : R μ m.heap m'.heap a b) :
    Alike μ R m m' (.done a m) (.done b m') :=
  ⟨μ, .refl ht, hr⟩

theorem Alike.failed (ht : Twins μ m m') (e : RuntimeError) :
    Alike μ R m m' (.failed e m) (.failed e m') :=
  ⟨rfl, μ, .refl ht⟩

theorem Alike.bind {x : Run α} {y : Run β} {f : α → Run γ} {g : β → Run δ}
    (hx : Alike μ R m m' (x m) (y m'))
    (hf : ∀ a b μ₁ m₁ m₁', Onward μ m m' μ₁ m₁ m₁' → R μ₁ m₁.heap m₁'.heap a b →
      Alike μ₁ S m₁ m₁' (f a m₁) (g b m₁')) :
    Alike μ S m m' ((x >>= f) m) ((y >>= g) m') := by
  refine Agree.bind hx ?_
  rintro a m₁ b m₁' ⟨μ₁, ho, hr⟩
  refine Agree.mono (hf a b μ₁ m₁ m₁' ho hr) ?_ ?_
  · rintro c m₂ d m₂' ⟨μ₂, ho', hs⟩
    exact ⟨μ₂, ho.trans ho', hs⟩
  · rintro m₂ m₂' ⟨μ₂, ho'⟩
    exact ⟨μ₂, ho.trans ho'⟩

theorem Alike.ite {v w : Value} (hv : v.truthy = w.truthy) {x x' : Run α} {y y' : Run β}
    (hx : Alike μ R m m' (x m) (y m')) (hx' : Alike μ R m m' (x' m) (y' m')) :
    Alike μ R m m' ((if v.truthy then x else x') m) ((if w.truthy then y else y') m') := by
  rw [hv]
  split
  · exact hx
  · exact hx'

theorem Twins.withCurrent (ht : Twins μ m m') (frame frame' : Nat) :
    Twins μ { m with current := frame } { m' with current := frame' } :=
  ht.withSupplies rfl rfl ht.output ht.nextIdentity ht.clock

theorem Alike.inNewFrames {frame frame' : Nat} {own own' : Bindings} {x : Run α} {y : Run β}
    (he : μ.Extends μ₁)
    (hx : Alike μ₁ R (m.entered frame own) (m'.entered frame' own') (x (m.entered frame own))
      (y (m'.entered frame' own'))) :
    Alike μ R m m' (Run.inNewFrame frame own x m) (Run.inNewFrame frame' own' y m') := by
  rw [Run.inNewFrame_apply, Run.inNewFrame_apply]
  have leave {μ₂ m₂ m₂'}
      (ho : Onward μ₁ (m.entered frame own) (m'.entered frame' own') μ₂ m₂ m₂') :
      Onward μ m m' μ₂ { m₂ with current := m.current } { m₂' with current := m'.current } :=
    ⟨he.trans ho.extended, ho.grows.leave, ho.grows'.leave, ho.twins.withCurrent ..⟩
  exact Agree.onMachine _ _ hx (fun _ _ _ _ ⟨μ₂, ho, hr⟩ => ⟨μ₂, leave ho, hr⟩)
    fun _ _ ⟨μ₂, ho⟩ => ⟨μ₂, leave ho⟩

theorem Alike.inBlockLeft {x : Run α} {o : Outcome β} (he : μ.Extends μ₁)
    (hx : Alike μ₁ R (m.entered m.current []) m' (x (m.entered m.current [])) o) :
    Alike μ R m m' (Run.inBlock x m) o := by
  unfold Run.inBlock
  rw [Run.inNewFrame_apply, ← Outcome.onMachine_id o]
  have leave {μ₂ m₂ m₂'} (ho : Onward μ₁ (m.entered m.current []) m' μ₂ m₂ m₂') :
      Onward μ m m' μ₂ { m₂ with current := m.current } m₂' :=
    ⟨he.trans ho.extended, ho.grows.leave, ho.grows', ho.twins.withCurrent ..⟩
  exact Agree.onMachine _ _ hx (fun _ _ _ _ ⟨μ₂, ho, hr⟩ => ⟨μ₂, leave ho, hr⟩)
    fun _ _ ⟨μ₂, ho⟩ => ⟨μ₂, leave ho⟩

theorem Alike.inBlockRight {o : Outcome α} {y : Run β} (he : μ.Extends μ₁)
    (hx : Alike μ₁ R m (m'.entered m'.current []) o (y (m'.entered m'.current []))) :
    Alike μ R m m' o (Run.inBlock y m') := by
  unfold Run.inBlock
  rw [Run.inNewFrame_apply, ← Outcome.onMachine_id o]
  have leave {μ₂ m₂ m₂'} (ho : Onward μ₁ m (m'.entered m'.current []) μ₂ m₂ m₂') :
      Onward μ m m' μ₂ m₂ { m₂' with current := m'.current } :=
    ⟨he.trans ho.extended, ho.grows, ho.grows'.leave, ho.twins.withCurrent ..⟩
  exact Agree.onMachine _ _ hx (fun _ _ _ _ ⟨μ₂, ho, hr⟩ => ⟨μ₂, leave ho, hr⟩)
    fun _ _ ⟨μ₂, ho⟩ => ⟨μ₂, leave ho⟩

end

-- ---------------------------------------------------------------------------
-- Names, functions, output and time
-- ---------------------------------------------------------------------------

def Anything (_ : Matching) (_ _ : Heap) (_ : α) (_ : β) : Prop :=
  True

/-- Twins in places with the given layers around them. -/
structure Beside (μ : Matching) (σ : Layers) (m m' : Machine) : Prop where
  twins : Twins μ m m'
  chained : Chained μ m.heap m'.heap σ m.current m'.current

theorem Chained.paired {μ : Matching} {h h' : Heap} {σ : Layers} {frame frame' : Nat}
    (hc : Chained μ h h' σ frame frame') (ho : Open σ) : μ.Paired frame frame' := by
  cases hc with
  | outside old => exact .inl ⟨old, rfl⟩
  | shared pair => exact .inr pair
  | left | right => exact ho.elim

section
variable {μ μ₁ : Matching} {σ : Layers} {m m₁ m' m₁' : Machine} {d d' : Option Nat}

theorem Onward.beside (ho : Onward μ m m' μ₁ m₁ m₁') (hb : Beside μ σ m m') :
    Beside μ₁ σ m₁ m₁' where
  twins := ho.twins
  chained := by
    rw [ho.grows.current, ho.grows'.current]
    exact hb.chained.mono ho.grows.heap ho.grows'.heap ho.extended

theorem Twins.onwardWrite (ht : Twins μ m m') {frame frame' : Nat} (hp : μ.Paired frame frame')
    (name : String) {v w : Value} (hv : Same μ m.heap m'.heap v w) :
    Onward μ m m' μ { m with heap := m.heap.define frame name v }
      { m' with heap := m'.heap.define frame' name w } :=
  ⟨.refl μ, .ofHeap (.define ..), .ofHeap (.define ..), ht.write hp name hv⟩

theorem Twins.globalFrame (ht : Twins μ m m') : μ.Paired Heap.globalFrame Heap.globalFrame :=
  .inl ⟨ht.global, rfl⟩

theorem Beside.read (hb : Beside μ σ m m') (name : Token) (hd : Option.Rel (Across σ) d d') :
    Alike μ Same m m' (Run.read name d m) (Run.read name d' m') := by
  cases hd with
  | some across =>
    have paired := hb.twins.ancestor hb.chained across
    have bound := hb.twins.bound _ _ paired name.lexeme
    rw [Run.read_local, Run.read_local]
    revert bound
    generalize m.heap.own? _ name.lexeme = v
    generalize m'.heap.own? _ name.lexeme = w
    rintro (hs | -)
    · exact .pure hb.twins hs
    · exact .failed hb.twins _
  | none =>
    have bound := hb.twins.bound _ _ hb.twins.globalFrame name.lexeme
    rw [Run.read_global, Run.read_global]
    revert bound
    generalize m.heap.own? _ name.lexeme = v
    generalize m'.heap.own? _ name.lexeme = w
    rintro (hs | -)
    · exact .pure hb.twins hs
    · exact .failed hb.twins _

theorem Beside.assign (hb : Beside μ σ m m') (name : Token) (hd : Option.Rel (Across σ) d d')
    {v w : Value} (hv : Same μ m.heap m'.heap v w) :
    Alike μ Anything m m' (Run.assign name d v m) (Run.assign name d' w m') := by
  cases hd with
  | some across =>
    have paired := hb.twins.ancestor hb.chained across
    exact ⟨μ, hb.twins.onwardWrite paired name.lexeme hv, trivial⟩
  | none =>
    have bound := hb.twins.bound _ _ hb.twins.globalFrame name.lexeme
    rw [Run.assign_global, Run.assign_global]
    revert bound
    generalize m.heap.own? Heap.globalFrame name.lexeme = a
    generalize m'.heap.own? Heap.globalFrame name.lexeme = b
    rintro (_ | -)
    · exact ⟨μ, hb.twins.onwardWrite hb.twins.globalFrame name.lexeme hv, trivial⟩
    · exact .failed hb.twins _

theorem Beside.define (hb : Beside μ σ m m') (ho : Open σ) (name : String) {v w : Value}
    (hv : Same μ m.heap m'.heap v w) :
    Alike μ Anything m m' (Run.define name v m) (Run.define name w m') :=
  ⟨μ, hb.twins.onwardWrite (hb.chained.paired ho) name hv, trivial⟩

theorem Beside.makeClosure (hb : Beside μ σ m m') (name : Token) (parameters : List Token)
    {body body' : List Stmt} (hs : SameStmts (.shared :: σ) body body') :
    Alike μ Same m m' (Run.makeClosure ⟨name, parameters, body⟩ m)
      (Run.makeClosure ⟨name, parameters, body'⟩ m') := by
  have ht := hb.twins
  have grows := (Run.Grows.makeClosure ⟨name, parameters, body⟩).done (m := m) rfl
  have grows' := (Run.Grows.makeClosure ⟨name, parameters, body'⟩).done (m := m') rfl
  refine ⟨μ, ⟨.refl μ, grows, grows', ?_⟩, ?_⟩
  · exact ht.withSupplies rfl rfl ht.output (congrArg (· + 1) ht.nextIdentity) ht.clock
  · rw [ht.nextIdentity]
    exact .callable (.closure hs hb.chained)

theorem Twins.readClock (ht : Twins μ m m') :
    Alike μ Same m m' (Run.readClock m) (Run.readClock m') := by
  refine ⟨μ, ⟨.refl μ, Run.Grows.readClock.done rfl, Run.Grows.readClock.done rfl, ?_⟩, ?_⟩
  · exact ht.withSupplies rfl rfl ht.output ht.nextIdentity (by rw [ht.clock])
  · rw [ht.clock]
    exact .plain (by simp)

theorem Twins.printLine (ht : Twins μ m m') (line : String) :
    Alike μ Anything m m' (Run.printLine line m) (Run.printLine line m') := by
  have grows := Run.Grows.printLine line
  refine ⟨μ, ⟨.refl μ, grows.done rfl, grows.done rfl, ?_⟩, trivial⟩
  have output := congrArg (Output.printLine · line) ht.output
  exact ht.withSupplies rfl rfl output ht.nextIdentity ht.clock

theorem Twins.check (ht : Twins μ m m') (line : Nat) {r : Except RuntimeCause Value}
    (hr : ∀ v, r = .ok v → ∀ c, v ≠ .callable c) :
    Alike μ Same m m' (Run.check line r m) (Run.check line r m') := by
  cases r with
  | ok v => exact .pure ht (.plain (hr v rfl))
  | error cause => exact .failed ht _

theorem Beside.inBlock (hb : Beside μ σ m m') {R : Likeness α β} {x : Run α} {y : Run β}
    (hx : ∀ μ₁ m₁ m₁', Beside μ₁ (.shared :: σ) m₁ m₁' → Alike μ₁ R m₁ m₁' (x m₁) (y m₁')) :
    Alike μ R m m' (Run.inBlock x m) (Run.inBlock y m') := by
  obtain ⟨μ₁, extended, twins, chained⟩ :=
    hb.twins.enter hb.chained (.nil : SameBindings μ _ _ [] [])
  exact .inNewFrames extended (hx _ _ _ ⟨twins, chained⟩)

theorem Beside.inBlockLeft (hb : Beside μ σ m m') {R : Likeness α β} {x : Run α} {y : Run β}
    (hx : ∀ μ₁ m₁, Beside μ₁ (.left :: σ) m₁ m' → Alike μ₁ R m₁ m' (x m₁) (y m')) :
    Alike μ R m m' (Run.inBlock x m) (y m') := by
  obtain ⟨μ₁, extended, twins, chained⟩ := hb.twins.enterLeft hb.chained
  exact .inBlockLeft extended (hx _ _ ⟨twins, chained⟩)

theorem Beside.inBlockRight (hb : Beside μ σ m m') {R : Likeness α β} {x : Run α} {y : Run β}
    (hx : ∀ μ₁ m₁', Beside μ₁ (.right :: σ) m m₁' → Alike μ₁ R m m₁' (x m) (y m₁')) :
    Alike μ R m m' (x m) (Run.inBlock y m') := by
  obtain ⟨μ₁, extended, twins, chained⟩ := hb.twins.enterRight hb.chained
  exact .inBlockRight extended (hx _ _ ⟨twins, chained⟩)

end

-- ---------------------------------------------------------------------------
-- Runs
-- ---------------------------------------------------------------------------

inductive SameCompletion (μ : Matching) (h h' : Heap) : Completion → Completion → Prop
  | normal : SameCompletion μ h h' .normal .normal
  | returned {v w} : Same μ h h' v w → SameCompletion μ h h' (.returned v) (.returned w)

theorem SameCompletion.value {μ : Matching} {h h' : Heap} {c c' : Completion}
    (hc : SameCompletion μ h h' c c') : Same μ h h' c.value c'.value := by
  cases hc with
  | normal => exact .nil
  | returned hv => exact hv

def SameValues (μ : Matching) (h h' : Heap) : List Value → List Value → Prop :=
  List.Forall₂ (Same μ h h')

-- The induction is on the steps, since a call runs a body that is no part of the tree: the bodies
-- of two like functions are the same in the layers around the frames that they captured.

mutual

theorem evaluate_alike : ∀ (n : Nat) {e e' : Expr} {μ σ m m'}, Beside μ σ m m' → SameExpr σ e e' →
    Alike μ Same m m' (e.evaluate n m) (e'.evaluate n m')
  | 0, _, _, _, _, _, _ => fun _ _ => trivial
  | n + 1, _, _, _, _, _, _ => fun hb he => by
    cases he with
    | literal value => exact .pure hb.twins (.ofConstant value)
    | grouping he => exact evaluate_alike n hb he
    | unary operator he =>
      refine .bind (evaluate_alike n hb he) ?_
      intro v w μ₁ m₁ m₁' ho hv
      rw [hv.unary]
      exact ho.twins.check _ fun _ => unary_ne_callable
    | binary operator ha hb' =>
      refine .bind (evaluate_alike n hb ha) ?_
      intro v w μ₁ m₁ m₁' ho₁ hv
      refine .bind (evaluate_alike n (ho₁.beside hb) hb') ?_
      intro v' w' μ₂ m₂ m₂' ho₂ hv'
      rw [(ho₂.same hv).binary _ hv']
      exact ho₂.twins.check _ fun _ => binary_ne_callable
    | logical operator ha hb' =>
      refine .bind (evaluate_alike n hb ha) ?_
      intro v w μ₁ m₁ m₁' ho hv
      have whole := evaluate_alike n (ho.beside hb) hb'
      generalize operator.kind = kind
      cases kind with
      | kwOr => exact .ite hv.truthy (.pure ho.twins hv) whole
      | kwAnd => exact .ite hv.truthy whole (.pure ho.twins hv)
      | _ => exact .failed ho.twins _
    | «variable» name hd => exact hb.read name hd
    | assign name he hd =>
      refine .bind (evaluate_alike n hb he) ?_
      intro v w μ₁ m₁ m₁' ho₁ hv
      refine .bind ((ho₁.beside hb).assign name hd hv) ?_
      intro _ _ μ₂ m₂ m₂' ho₂ _
      exact .pure ho₂.twins (ho₂.same hv)
    | call paren he hes =>
      refine .bind (evaluate_alike n hb he) ?_
      intro f g μ₁ m₁ m₁' ho₁ hf
      refine .bind (evaluateList_alike n (ho₁.beside hb) hes) ?_
      intro vs ws μ₂ m₂ m₂' ho₂ hvs
      cases ho₂.same hf with
      | plain none =>
        cases f with
        | callable c => exact absurd rfl (none c)
        | _ => exact .failed ho₂.twins _
      | @callable identity c c' hc =>
        have arity : (⟨identity, c⟩ : Callable).arity = (⟨identity, c'⟩ : Callable).arity := by
          cases hc <;> rfl
        dsimp only
        rw [← hvs.length_eq, arity]
        split
        · exact call_alike n ho₂.twins hc hvs
        · exact .failed ho₂.twins _

theorem evaluateList_alike : ∀ (n : Nat) {es es' : List Expr} {μ σ m m'}, Beside μ σ m m' →
    List.Forall₂ (SameExpr σ) es es' →
    Alike μ SameValues m m' (Expr.evaluateList n es m) (Expr.evaluateList n es' m')
  | 0, _, _, _, _, _, _ => fun _ _ => trivial
  | n + 1, _, _, _, _, _, _ => fun hb hes => by
    cases hes with
    | nil => exact .pure hb.twins .nil
    | cons he hes =>
      refine .bind (evaluate_alike n hb he) ?_
      intro v w μ₁ m₁ m₁' ho₁ hv
      refine .bind (evaluateList_alike n (ho₁.beside hb) hes) ?_
      intro vs ws μ₂ m₂ m₂' ho₂ hvs
      exact .pure ho₂.twins (.cons (ho₂.same hv) hvs)

theorem call_alike : ∀ (n : Nat) {identity : Nat} {c c' : Callee} {vs ws : List Value} {μ m m'},
    Twins μ m m' → SameCallee μ m.heap m'.heap c c' → SameValues μ m.heap m'.heap vs ws →
    Alike μ Same m m' (Callable.call n ⟨identity, c⟩ vs m) (Callable.call n ⟨identity, c'⟩ ws m')
  | 0, _, _, _, _, _, _, _, _ => fun _ _ _ => trivial
  | n + 1, _, _, _, _, _, _, _, _ => fun ht hc hvs => by
    cases hc with
    | clock => exact ht.readClock
    | @closure _ name parameters _ _ _ _ hs chained =>
      have own := SameBindings.arguments parameters hvs .nil
      obtain ⟨μ₁, extended, twins, entered⟩ := ht.enter chained own
      have body := executeList_alike n ⟨twins, entered⟩ hs
      refine .bind (.inNewFrames extended body) ?_
      intro c c' μ₂ m₂ m₂' ho hc
      exact .pure ho.twins hc.value

theorem execute_alike : ∀ (n : Nat) {t t' : Stmt} {μ σ m m'}, Beside μ σ m m' → SameStmt σ t t' →
    Alike μ SameCompletion m m' (t.execute n m) (t'.execute n m')
  | 0, _, _, _, _, _, _ => fun _ _ => trivial
  | n + 1, _, _, _, _, _, _ => fun hb hs => by
    cases hs with
    | expression he =>
      refine .bind (evaluate_alike n hb he) ?_
      intro _ _ μ₁ m₁ m₁' ho _
      exact .pure ho.twins .normal
    | print he =>
      refine .bind (evaluate_alike n hb he) ?_
      intro v w μ₁ m₁ m₁' ho₁ hv
      rw [hv.text]
      refine .bind (ho₁.twins.printLine _) ?_
      intro _ _ μ₂ m₂ m₂' ho₂ _
      exact .pure ho₂.twins .normal
    | «variable» name ho he =>
      cases he with
      | none =>
        refine .bind (hb.define ho name.lexeme .nil) ?_
        intro _ _ μ₁ m₁ m₁' ho _
        exact .pure ho.twins .normal
      | some he =>
        refine .bind (evaluate_alike n hb he) ?_
        intro v w μ₁ m₁ m₁' ho₁ hv
        refine .bind ((ho₁.beside hb).define ho name.lexeme hv) ?_
        intro _ _ μ₂ m₂ m₂' ho₂ _
        exact .pure ho₂.twins .normal
    | block hs => exact hb.inBlock fun μ₁ m₁ m₁' hb' => executeList_alike n hb' hs
    | branch he ht =>
      refine .bind (evaluate_alike n hb he) ?_
      intro v w μ₁ m₁ m₁' ho hv
      exact .ite hv.truthy (execute_alike n (ho.beside hb) ht) (.pure ho.twins .normal)
    | branchElse he ht hu =>
      refine .bind (evaluate_alike n hb he) ?_
      intro v w μ₁ m₁ m₁' ho hv
      exact .ite hv.truthy (execute_alike n (ho.beside hb) ht) (execute_alike n (ho.beside hb) hu)
    | loop he ht =>
      refine .bind (evaluate_alike n hb he) ?_
      intro v w μ₁ m₁ m₁' ho₁ hv
      have hb₁ := ho₁.beside hb
      refine .ite hv.truthy ?_ (.pure ho₁.twins .normal)
      refine .bind (execute_alike n hb₁ ht) ?_
      intro c c' μ₂ m₂ m₂' ho₂ hc
      cases hc with
      | normal => exact execute_alike n (ho₂.beside hb₁) (.loop he ht)
      | returned hv => exact .pure ho₂.twins (.returned hv)
    | function name parameters ho hs =>
      refine .bind (hb.makeClosure name parameters hs) ?_
      intro v w μ₁ m₁ m₁' ho₁ hv
      refine .bind ((ho₁.beside hb).define ho name.lexeme hv) ?_
      intro _ _ μ₂ m₂ m₂' ho₂ _
      exact .pure ho₂.twins .normal
    | «return» keyword he =>
      cases he with
      | none => exact .pure hb.twins (.returned .nil)
      | some he =>
        refine .bind (evaluate_alike n hb he) ?_
        intro v w μ₁ m₁ m₁' ho hv
        exact .pure ho.twins (.returned hv)

theorem executeList_alike : ∀ (n : Nat) {ts ts' : List Stmt} {μ σ m m'}, Beside μ σ m m' →
    SameStmts σ ts ts' →
    Alike μ SameCompletion m m' (Stmt.executeList n ts m) (Stmt.executeList n ts' m')
  | 0, _, _, _, _, _, _ => fun _ _ => trivial
  | n + 1, _, _, _, _, _, _ => fun hb hs => by
    cases hs with
    | nil => exact .pure hb.twins .normal
    | cons ht hts =>
      refine .bind (execute_alike n hb ht) ?_
      intro c c' μ₁ m₁ m₁' ho hc
      cases hc with
      | normal => exact executeList_alike n (ho.beside hb) hts
      | returned hv => exact .pure ho.twins (.returned hv)

end

end Lox.Loop
