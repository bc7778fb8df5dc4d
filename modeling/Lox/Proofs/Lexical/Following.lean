import Lox.Proofs.Lexical.Relation

/-!
# Parts that go alike

`Follows` says of a part of a program on a machine and of its counterpart over a store that they end
alike, and that machine and store stay related by places that extend those before. It is closed
under sequencing. Reading, assigning and declaring follow their counterparts wherever the frame is
seen as the environment (`Stands`); a block or a call comes to a frame whose cells are those of its
scope (`InBlock`).
-/

namespace Lox.Lexical

variable {α β γ δ : Type}

-- ---------------------------------------------------------------------------
-- Following and sequencing
-- ---------------------------------------------------------------------------

/-- Two outcomes of one kind: `Q` for values and the states they come with, `E` for the states that
an error leaves, which is the same error. -/
def Agree (Q : α → Machine → β → Store → Prop) (E : Machine → Store → Prop) :
    Outcome α → Outcome β Store → Prop
  | .done a m, .done b s => Q a m b s
  | .failed e m, .failed e' s => e = e' ∧ E m s
  | .unfinished, .unfinished => True
  | _, _ => False

theorem Agree.mono {Q Q' : α → Machine → β → Store → Prop} {E E' : Machine → Store → Prop}
    {o : Outcome α} {o' : Outcome β Store} (h : Agree Q E o o')
    (hQ : ∀ a m b s, Q a m b s → Q' a m b s) (hE : ∀ m s, E m s → E' m s) : Agree Q' E' o o' := by
  cases o <;> cases o'
  case done.done => exact hQ _ _ _ _ h
  case failed.failed => exact ⟨h.1, hE _ _ h.2⟩
  case unfinished.unfinished => trivial
  all_goals exact h.elim

theorem Agree.bind {Q : α → Machine → β → Store → Prop} {Q' : γ → Machine → δ → Store → Prop}
    {E : Machine → Store → Prop} {x : Lox.Run α} {y : Run β} {f : α → Lox.Run γ} {g : β → Run δ}
    {m : Machine} {s : Store} (hx : Agree Q E (x m) (y s))
    (hf : ∀ a m b s, Q a m b s → Agree Q' E (f a m) (g b s)) :
    Agree Q' E ((x >>= f) m) ((y >>= g) s) := by
  rw [Lox.Run.bind_apply, Run.bind_apply]
  cases hm : x m <;> cases hs : y s <;> rw [hm, hs] at hx
  case done.done => exact hf _ _ _ _ hx
  case failed.failed => exact hx
  case unfinished.unfinished => trivial
  all_goals exact hx.elim

/-- Where a part leads that was run from a machine with the given places. -/
structure Onward (bound : Nat) (places : Places) (m : Machine) (places' : Places) (m' : Machine)
    (s' : Store) : Prop where
  places : places.Extends bound places'
  grows : m.Grows m'
  related : Related places' m' s'

theorem Onward.trans {bound : Nat} {places places' places'' : Places} {m m' m'' : Machine}
    {s' s'' : Store} (h : Onward bound places m places' m' s')
    (h' : Onward bound places' m' places'' m'' s'') : Onward bound places m places'' m'' s'' :=
  ⟨h.places.trans h'.places, h.grows.trans h'.grows, h'.related⟩

theorem Onward.weaken {smaller bound : Nat} {places places' : Places} {m m' : Machine} {s' : Store}
    (h : Onward bound places m places' m' s') (hb : smaller ≤ bound) :
    Onward smaller places m places' m' s' :=
  ⟨h.places.weaken hb, h.grows, h.related⟩

/-- A part and its counterpart end alike, with values that `R` relates. -/
def Follows (bound : Nat) (places : Places) (R : Heap → Places → α → β → Prop) (m : Machine)
    (s : Store) (x : Lox.Run α) (y : Run β) : Prop :=
  Agree (fun a m' b s' => ∃ places', Onward bound places m places' m' s' ∧ R m'.heap places' a b)
    (fun m' s' => ∃ places', Onward bound places m places' m' s') (x m) (y s)

section
variable {bound bound' : Nat} {places : Places} {R : Heap → Places → α → β → Prop}
  {S : Heap → Places → γ → δ → Prop} {m : Machine} {s : Store}

theorem Follows.done {x : Lox.Run α} {y : Run β} {a : α} {b : β} {m' : Machine} {s' : Store}
    {places' : Places} (hx : x m = .done a m') (hy : y s = .done b s')
    (ho : Onward bound places m places' m' s') (hr : R m'.heap places' a b) :
    Follows bound places R m s x y := by
  unfold Follows
  rw [hx, hy]
  exact ⟨places', ho, hr⟩

theorem Follows.failed {x : Lox.Run α} {y : Run β} {e : RuntimeError} (hx : x m = .failed e m)
    (hy : y s = .failed e s) (hr : Related places m s) : Follows bound places R m s x y := by
  unfold Follows
  rw [hx, hy]
  exact ⟨rfl, places, .refl .., .refl m, hr⟩

theorem Follows.pure {a : α} {b : β} (hr : Related places m s) (hv : R m.heap places a b) :
    Follows bound places R m s (Pure.pure a) (Pure.pure b) :=
  .done rfl rfl ⟨.refl .., .refl m, hr⟩ hv

theorem Follows.extend {places' : Places} {x : Lox.Run α} {y : Run β}
    (hx : Follows bound places' R m s x y) (he : places.Extends bound places') :
    Follows bound places R m s x y := by
  refine Agree.mono hx ?_ ?_
  · rintro a m' b s' ⟨places'', ho, hr⟩
    exact ⟨places'', ⟨he.trans ho.places, ho.grows, ho.related⟩, hr⟩
  · rintro m' s' ⟨places'', ho⟩
    exact ⟨places'', he.trans ho.places, ho.grows, ho.related⟩

theorem Follows.bind {x : Lox.Run α} {y : Run β} {f : α → Lox.Run γ} {g : β → Run δ}
    (hx : Follows bound' places R m s x y) (hb : bound ≤ bound')
    (hf : ∀ a b places' m' s', Onward bound' places m places' m' s' → R m'.heap places' a b →
      Follows bound places' S m' s' (f a) (g b)) :
    Follows bound places S m s (x >>= f) (y >>= g) := by
  refine Agree.bind (Agree.mono hx (fun _ _ _ _ h => h) ?_) ?_
  · rintro m' s' ⟨places', ho⟩
    exact ⟨places', ho.weaken hb⟩
  · rintro a m' b s' ⟨places', ho, hr⟩
    refine Agree.mono (hf a b places' m' s' ho hr) ?_ ?_
    · rintro c m'' d s'' ⟨places'', ho', hr'⟩
      exact ⟨places'', (ho.weaken hb).trans ho', hr'⟩
    · rintro m'' s'' ⟨places'', ho'⟩
      exact ⟨places'', (ho.weaken hb).trans ho'⟩

end

def Nothing (_ : Heap) (_ : Places) (_ : α) (_ : β) : Prop :=
  True

-- ---------------------------------------------------------------------------
-- Where an accepted part stands
-- ---------------------------------------------------------------------------

/-- A machine and a store at a place with the given scopes and environment. -/
structure Stands (bound : Nat) (places : Places) (m : Machine) (s : Store) (scopes : Scopes)
    (env : Environment) : Prop where
  related : Related places m s
  sees : Sees m.heap places scopes.locals m.current env
  small : bound ≤ m.heap.frames.size

section
variable {bound bound' : Nat} {places places' : Places} {m m' : Machine} {s s' : Store}
  {scopes : Scopes} {env : Environment}

theorem Onward.sees (ho : Onward bound' places m places' m' s') {local_scopes : List Scope}
    (h : Sees m.heap places local_scopes m.current env) :
    Sees m'.heap places' local_scopes m'.current env :=
  ho.grows.current ▸ h.mono ho.grows.heap ho.places

theorem Onward.stands (ho : Onward bound' places m places' m' s')
    (h : Stands bound places m s scopes env) : Stands bound places' m' s' scopes env :=
  ⟨ho.related, ho.sees h.sees, Nat.le_trans h.small ho.grows.heap.size⟩

theorem Onward.same (ho : Onward bound' places m places' m' s') {v : Value} {w : Value Environment}
    (h : Same m.heap places v w) : Same m'.heap places' v w :=
  h.mono ho.grows.heap ho.places

theorem Related.onward (hr : Related places m s) : Onward bound places m places m s :=
  ⟨.refl .., .refl m, hr⟩

theorem Stands.read (h : Stands bound places m s scopes env) (name : Token) :
    Follows bound places Same m s (Lox.Run.read name (scopes.distance name.lexeme))
      (Run.read env name) := by
  have seen := h.sees.names name.lexeme
  unfold Follows Run.read Scopes.distance
  revert seen
  generalize scopes.locals.findIdx? (·.declares name.lexeme) = distance
  generalize env.lookup name.lexeme = cell
  rintro (@⟨distance, cell, hc⟩ | -)
  · have content := h.related.cells _ _ _ hc
    rw [Lox.Run.read_local]
    dsimp only
    revert content
    generalize m.heap.own? (m.heap.ancestor m.current distance) name.lexeme = a
    generalize s.content cell = b
    rintro (hs | -)
    · exact ⟨places, h.related.onward, hs⟩
    · exact ⟨rfl, places, h.related.onward⟩
  · have bound := sameBinding_lookup h.related.globals name.lexeme
    rw [Lox.Run.read_global]
    dsimp only
    unfold Heap.own?
    revert bound
    generalize (m.heap.bindings Heap.globalFrame).lookup name.lexeme = a
    generalize s.globals.lookup name.lexeme = b
    rintro (hs | -)
    · exact ⟨places, h.related.onward, hs⟩
    · exact ⟨rfl, places, h.related.onward⟩

theorem Stands.assign (h : Stands bound places m s scopes env) (name : Token) {v : Value}
    {w : Value Environment} (hv : Same m.heap places v w) :
    Follows bound places Nothing m s (Lox.Run.assign name (scopes.distance name.lexeme) v)
      (Run.assign env name w) := by
  have seen := h.sees.names name.lexeme
  unfold Follows Run.assign Scopes.distance
  revert seen
  generalize scopes.locals.findIdx? (·.declares name.lexeme) = distance
  generalize env.lookup name.lexeme = cell
  rintro (hc | -)
  · exact ⟨places, ⟨.refl .., .ofHeap (.define ..), h.related.write hc hv⟩, trivial⟩
  · have bound := sameBinding_lookup h.related.globals name.lexeme
    rw [Lox.Run.assign_global]
    dsimp only
    unfold Heap.own?
    revert bound
    generalize (m.heap.bindings Heap.globalFrame).lookup name.lexeme = a
    generalize s.globals.lookup name.lexeme = b
    rintro (_ | -)
    · exact ⟨places, ⟨.refl .., .ofHeap (.define ..), h.related.defineGlobal _ hv⟩, trivial⟩
    · exact ⟨rfl, places, h.related.onward⟩

theorem Stands.define {name : String} (h : Stands bound places m s (scopes.declare name) env)
    {v : Value} {w : Value Environment} (hv : Same m.heap places v w) :
    Follows bound places Nothing m s (Lox.Run.define name v) (Run.define env name w) := by
  have seen := h.sees.names name
  have global := h.sees.global
  rw [Scopes.locals_declare] at seen global
  unfold Follows Lox.Run.define Run.define
  revert seen
  cases hl : scopes.locals with
  | nil =>
    generalize env.lookup name = cell
    rintro (_ | -)
    have defined := h.related.defineGlobal name hv
    rw [← global (by rw [hl]; rfl)] at defined
    exact ⟨places, ⟨.refl .., .ofHeap (.define ..), defined⟩, trivial⟩
  | cons scope outer =>
    rw [List.modifyHead_cons, List.findIdx?_cons, Scope.declares_mark, decide_eq_true rfl]
    generalize env.lookup name = cell
    rintro (hc | -)
    exact ⟨places, ⟨.refl .., .ofHeap (.define ..), h.related.write hc hv⟩, trivial⟩

theorem Stands.makeClosure {function : Function}
    (h : Stands bound places m s (scopes.declare function.name.lexeme) env)
    (ha : function.Accepted (scopes.introduce function.name.lexeme)) :
    Follows bound places Same m s (Lox.Run.makeClosure function)
    (Run.makeClosure env function) := by
  have hr := h.related
  have sees : Sees m.heap places (scopes.introduce function.name.lexeme).locals m.current env := by
    have sees := h.sees
    rw [Scopes.locals_declare] at sees
    rw [Scopes.locals_introduce]
    exact sees.introduce
  refine .done rfl rfl ⟨.refl .., (Lox.Run.Grows.makeClosure function).done rfl, ?_⟩ ?_
  · exact hr.withSupplies rfl rfl rfl hr.output (congrArg (· + 1) hr.nextIdentity) hr.clock
  · rw [hr.nextIdentity]
    exact .callable (.closure sees ha)

-- ---------------------------------------------------------------------------
-- Blocks and calls
-- ---------------------------------------------------------------------------

/-- Inside a block or a function body: the current frame is a local one, and it is the place of
cells only for names that the innermost scope declares. -/
structure InBlock (bound : Nat) (places : Places) (m : Machine) (s : Store) (scopes : Scopes)
    (env : Environment) : Prop extends Stands bound places m s scopes env where
  local_frame : Heap.globalFrame < m.current
  exact : ∀ name, (m.current, name) ∈ places → scopes.innermost.declares name

theorem InBlock.exists_locals (h : InBlock bound places m s scopes env) :
    ∃ scope outer, scopes.locals = scope :: outer := by
  cases hl : scopes.locals with
  | nil => exact absurd (h.sees.global hl) (Nat.ne_of_gt h.local_frame)
  | cons scope outer => exact ⟨scope, outer, rfl⟩

theorem InBlock.declare (h : InBlock bound places m s scopes env) (hb : bound ≤ m.current)
    {name : String} (free : scopes.Free name) :
    ∃ env' s' places', Run.declare env name s = .done env' s' ∧
      Onward bound places m places' m s' ∧
      InBlock bound places' m s' (scopes.declare name) env' := by
  obtain ⟨scope, outer, hl⟩ := h.exists_locals
  have innermost := Scopes.innermost_of_locals hl
  have undeclared : scope.declares name = false := innermost ▸ free (by simp [hl])
  have declared : (scopes.declare name).locals = scope.mark name false :: outer := by
    rw [Scopes.locals_declare, hl]
    rfl
  have fresh : (m.current, name) ∉ places := by
    intro mem
    have := h.exact name mem
    rw [innermost, undeclared] at this
    cases this
  have related := h.related.allocate fresh h.local_frame h.sees.size
  have sees := hl ▸ h.sees
  refine ⟨_, _, places ++ [(m.current, name)], rfl, ⟨.push name hb, .refl m, related⟩,
    ⟨related, ?_, h.small⟩, h.local_frame, ?_⟩
  · rw [declared, ← h.related.length]
    exact sees.declare name false
  · intro key mem
    rw [Scopes.innermost_of_locals declared, Scope.declares_mark]
    rcases List.mem_append.1 mem with mem | mem
    · rw [← innermost, h.exact key mem, Bool.or_true]
    · cases List.mem_singleton.1 mem
      simp

theorem InBlock.introduce {name : String} (h : InBlock bound places m s (scopes.declare name) env) :
    InBlock bound places m s (scopes.introduce name) env := by
  obtain ⟨scope, outer, hl⟩ : ∃ scope outer, scopes.locals = scope :: outer := by
    obtain ⟨scope, outer, hd⟩ := h.exists_locals
    rw [Scopes.locals_declare] at hd
    cases hl : scopes.locals with
    | nil => simp [hl] at hd
    | cons scope outer => exact ⟨scope, outer, rfl⟩
  refine ⟨⟨h.related, ?_, h.small⟩, h.local_frame, fun key mem => ?_⟩
  · have sees := h.sees
    rw [Scopes.locals_declare] at sees
    rw [Scopes.locals_introduce]
    exact sees.introduce
  · have exact := h.exact key mem
    rw [Scopes.innermost_of_locals (by rw [Scopes.locals_declare, hl]; rfl)] at exact
    rw [Scopes.innermost_of_locals (by rw [Scopes.locals_introduce, hl]; rfl)]
    simpa [Scope.introduce] using exact

theorem Onward.inBlock (ho : Onward m.heap.frames.size places m places' m' s')
    (h : InBlock bound places m s scopes env) : InBlock bound places' m' s' scopes env where
  toStands := ho.stands h.toStands
  local_frame := ho.grows.current ▸ h.local_frame
  exact name mem := by
    rw [ho.grows.current] at mem
    exact h.exact name (ho.places.mem_of_lt mem h.sees.size)

theorem Related.inBlock (hr : Related places m s) (hb : bound ≤ m.heap.frames.size) {frame : Nat}
    (hs : Sees m.heap places scopes.locals frame env) :
    InBlock bound places (m.entered frame []) s scopes.enter env where
  related := hr.enter frame
  sees := hs.enter []
  small := Nat.le_trans hb (Heap.Grows.push ..).size
  local_frame := hr.global_frame
  exact _ mem := absurd (hr.local_frames _ mem).2 (Nat.lt_irrefl _)

theorem Follows.inNewFrame {R : Heap → Places → α → β → Prop} {outer : Nat} {own : Bindings}
    {x : Lox.Run α} {y : Run β} (hx : Follows bound places' R (m.entered outer own) s x y)
    (he : places.Extends bound places') :
    Follows bound places R m s (Lox.Run.inNewFrame outer own x) y := by
  have restored {places'' m' s'} (ho : Onward bound places' (m.entered outer own) places'' m' s') :
      Onward bound places m places'' { m' with current := m.current } s' :=
    ⟨he.trans ho.places, ⟨rfl, (Heap.Grows.push ..).trans ho.grows.heap, ho.grows.output⟩,
      ho.related.withSupplies rfl rfl rfl ho.related.output ho.related.nextIdentity
      ho.related.clock⟩
  unfold Follows at hx ⊢
  rw [Lox.Run.inNewFrame_apply]
  revert hx
  cases x (m.entered outer own) <;> cases y s
  case done.done =>
    rintro ⟨places'', ho, hr⟩
    exact ⟨places'', restored ho, hr⟩
  case failed.failed =>
    rintro ⟨rfl, places'', ho⟩
    exact ⟨rfl, places'', restored ho⟩
  case unfinished.unfinished => exact id
  all_goals exact False.elim

theorem Follows.of_done {R : Heap → Places → α → β → Prop} {x : Lox.Run α} {y : Run β} {a : α}
    (hf : Follows bound places R m s x y) (hx : x m = .done a m') :
    ∃ b s' places', y s = .done b s' ∧ Onward bound places m places' m' s' ∧
      R m'.heap places' a b := by
  unfold Follows at hf
  rw [hx] at hf
  cases hy : y s with
  | done b s' =>
    rw [hy] at hf
    obtain ⟨places', ho, hr⟩ := hf
    exact ⟨b, s', places', rfl, ho, hr⟩
  | failed | unfinished =>
    rw [hy] at hf
    exact hf.elim

theorem InBlock.bindParameters {outer : Nat} {own : Bindings} {parameters : List Token}
    {arguments : List Value} {arguments' : List (Value Environment)}
    (h : InBlock bound places (m.entered outer own) s scopes env) (hb : bound ≤ m.heap.frames.size)
    (free : scopes.AllFree parameters)
    (hv : List.Forall₂ (Same (m.entered outer own).heap places) arguments arguments')
    (hl : arguments.length = parameters.length) :
    ∃ env' s' places', Run.bindParameters env (parameters.zip arguments') s = .done env' s' ∧
      places.Extends bound places' ∧
      InBlock bound places'
        (m.entered outer
          ((parameters.zip arguments).foldl (fun b (p, v) => b.insert p.lexeme v) own))
        s' (parameters.foldl (fun s p => s.introduce p.lexeme) scopes) env' := by
  induction parameters generalizing arguments arguments' own places s scopes env with
  | nil => exact ⟨env, s, places, rfl, .refl .., h⟩
  | cons p rest ih =>
    cases hv with
    | nil => cases hl
    | @cons v w vs ws hv hvs =>
      obtain ⟨env₁, s₁, places₁, declared, ho₁, h₁⟩ := h.declare hb free.1
      have stands : Stands (m.entered outer own).heap.frames.size places₁ (m.entered outer own) s₁
          (scopes.declare p.lexeme) env₁ := ⟨h₁.related, h₁.sees, Nat.le_refl _⟩
      obtain ⟨_, s₂, places₂, defined, ho₂, -⟩ := (stands.define (ho₁.same hv)).of_done rfl
      have bound_at_entry : ({ m.entered outer own with
          heap := (m.entered outer own).heap.define m.heap.frames.size p.lexeme v } : Machine) =
          m.entered outer (own.insert p.lexeme v) := by
        simp only [Machine.entered, Heap.define_push]
      replace ho₂ : Onward _ places₁ _ places₂ (m.entered outer (own.insert p.lexeme v)) s₂ :=
        bound_at_entry ▸ ho₂
      have hvs₂ := hvs.imp fun _ _ hs => ho₂.same (ho₁.same hs)
      obtain ⟨env₃, s₃, places₃, bound, he, h₃⟩ :=
        ih (ho₂.inBlock h₁).introduce free.2 hvs₂ (Nat.succ.inj hl)
      refine ⟨env₃, s₃, places₃, ?_, ho₁.places.trans ((ho₂.weaken h.small).places.trans he), h₃⟩
      rw [List.zip_cons_cons, Run.bindParameters, Run.bind_apply, declared]
      dsimp only
      rw [Run.bind_apply, defined]
      exact bound

theorem Related.enterCall (hr : Related places m s) (hb : bound ≤ m.heap.frames.size) {frame : Nat}
    {function : Function} (hs : Sees m.heap places scopes.locals frame env)
    (ha : function.Accepted scopes) {arguments : List Value} {arguments' : List (Value Environment)}
    (hv : List.Forall₂ (Same m.heap places) arguments arguments')
    (hl : arguments.length = function.parameters.length) :
    ∃ env' s' places',
      Run.bindParameters env (function.parameters.zip arguments') s = .done env' s' ∧
      places.Extends bound places' ∧
      InBlock bound places' (m.entered frame (function.bindings arguments)) s'
        (scopes.inside function.parameters) env' :=
  (hr.inBlock hb hs).bindParameters hb ha.1
    (hv.imp fun _ _ hs => hs.mono (.push ..) (.refl 0 places)) hl

theorem Stands.during (h : Stands bound places m s scopes env) {t : Stmt}
    (ht : t.declared? = none) :
    Stands bound places m s (scopes.during t) env := by
  rwa [Scopes.during_of_undeclared ht]

theorem InBlock.declareFor (h : InBlock bound places m s scopes env) (hb : bound ≤ m.current)
    {t : Stmt} {inFunction : Bool} (ha : t.Accepted scopes inFunction) :
    ∃ env' s' places', Run.declareFor env t s = .done env' s' ∧ Onward bound places m places' m s' ∧
      InBlock bound places' m s' (scopes.during t) env' := by
  unfold Run.declareFor Scopes.during
  cases hd : t.declared? with
  | none => exact ⟨env, s, places, rfl, h.related.onward, h⟩
  | some name =>
    have free : scopes.Free name.lexeme := by
      cases t with
      | «variable» | function =>
        cases hd
        exact ha.1
      | _ => cases hd
    exact h.declare hb free

theorem InBlock.after {t : Stmt} (h : InBlock bound places m s (scopes.during t) env) :
    InBlock bound places m s (scopes.after t) env := by
  unfold Scopes.during at h
  unfold Scopes.after
  cases hd : t.declared? with
  | none =>
    rw [hd] at h
    exact h
  | some name =>
    rw [hd] at h
    exact h.introduce

end

end Lox.Lexical
