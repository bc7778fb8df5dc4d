import Lox.Proofs.Machine.Fitting
import Lox.Proofs.Machine.Points

/-!
# Accepted programs keep to their scopes

A machine is sound if every function bound in any of its frames carries a frame that fits the scopes
of its declaration. Accepted programs keep machines sound, however they end (`execute_sound`), and
at every point of such a run the current frame fits the scopes of the part that runs there
(`Reaches.fits`), also inside functions that earlier programs declared.
-/

namespace Lox

-- ---------------------------------------------------------------------------
-- Sound values, heaps and machines
-- ---------------------------------------------------------------------------

/-- A function declared in a program is accepted in scopes that the frame it captured fits. -/
def Callable.Sound (h : Heap) (c : Callable) : Prop :=
  ∀ function frame, c.callee = .closure function frame →
    ∃ s : Scopes, Settled s.locals ∧ h.Fits s.locals frame ∧ function.Accepted s

def Value.Sound (h : Heap) : Value → Prop
  | .callable c => c.Sound h
  | _ => True

theorem Callable.Sound.mono {h h' : Heap} (hg : h.Grows h') {c : Callable} (hc : c.Sound h) :
    c.Sound h' := by
  intro function frame hf
  obtain ⟨s, hs, hfit, ha⟩ := hc function frame hf
  exact ⟨s, hs, hfit.mono hg, ha⟩

theorem Value.Sound.mono {h h' : Heap} (hg : h.Grows h') {v : Value} (hv : v.Sound h) :
    v.Sound h' := by
  cases v with
  | callable c => exact Callable.Sound.mono hg hv
  | _ => trivial

theorem Value.sound_ofConstant (h : Heap) (c : Constant) : (Value.ofConstant c).Sound h := by
  cases c <;> trivial

theorem Value.sound_unary {h : Heap} {operator : Kind} {a v : Value}
    (hv : Value.unary operator a = .ok v) : v.Sound h := by
  unfold Value.unary at hv
  split at hv <;> cases hv <;> trivial

theorem Value.sound_binary {h : Heap} {operator : Kind} {a b v : Value}
    (hv : Value.binary operator a b = .ok v) : v.Sound h := by
  unfold Value.binary Value.plus Value.onNumbers at hv
  repeat' split at hv
  all_goals cases hv <;> trivial

def Heap.Sound (h : Heap) : Prop :=
  ∀ frame name v, h.own? frame name = some v → v.Sound h

theorem Heap.Sound.define {h : Heap} (hs : h.Sound) (frame : Nat) (name : String) {v : Value}
    (hv : v.Sound (h.define frame name v)) : (h.define frame name v).Sound := by
  intro other key w hw
  rw [own?_define] at hw
  split at hw
  · cases hw
    exact hv
  · exact (hs other key w hw).mono (.define ..)

theorem Heap.Sound.push {h : Heap} (hs : h.Sound) (outer : Nat) {own : Bindings}
    (ho : ∀ name v, own.lookup name = some v → v.Sound h) : (h.push outer own).2.Sound := by
  intro frame name v hv
  rw [own?_push] at hv
  split at hv
  · exact (ho name v hv).mono (.push ..)
  · exact (hs frame name v hv).mono (.push ..)

structure Machine.Sound (m : Machine) : Prop where
  heap : m.heap.Sound
  global : 0 < m.heap.frames.size

theorem Machine.Sound.withCurrent {m : Machine} (hm : m.Sound) (frame : Nat) :
    ({ m with current := frame } : Machine).Sound :=
  ⟨hm.heap, hm.global⟩

theorem Machine.Sound.define {m : Machine} (hm : m.Sound) (frame : Nat) (name : String) {v : Value}
    (hv : v.Sound (m.heap.define frame name v)) :
    ({ m with heap := m.heap.define frame name v } : Machine).Sound :=
  ⟨hm.heap.define frame name hv, by simpa using hm.global⟩

theorem Machine.Sound.entered {m : Machine} (hm : m.Sound) (outer : Nat) {own : Bindings}
    (ho : ∀ name v, own.lookup name = some v → v.Sound m.heap) : (m.entered outer own).Sound :=
  ⟨hm.heap.push outer ho, by simp [Machine.entered]⟩

-- ---------------------------------------------------------------------------
-- The bindings of a call
-- ---------------------------------------------------------------------------

theorem Function.lookup_foldl_insert (pairs : List (Token × Value)) (b : Bindings) (name : String) :
    (((pairs.foldl (fun b (p, v) => b.insert p.lexeme v) b).lookup name).isSome ↔
      (b.lookup name).isSome ∨ name ∈ pairs.map (·.1.lexeme)) ∧
    ∀ v, (pairs.foldl (fun b (p, v) => b.insert p.lexeme v) b).lookup name = some v →
      b.lookup name = some v ∨ v ∈ pairs.map Prod.snd := by
  induction pairs generalizing b with
  | nil => simp
  | cons pair rest ih =>
    obtain ⟨p, v⟩ := pair
    obtain ⟨bound, values⟩ := ih (b.insert p.lexeme v)
    rw [Bindings.lookup_insert] at bound values
    refine ⟨?_, fun w hw => ?_⟩
    · rw [List.foldl_cons, bound]
      by_cases h : name = p.lexeme <;> simp [h]
    · rcases values w hw with h | h
      · split at h
        · cases h
          exact .inr (by simp)
        · exact .inl h
      · exact .inr (by simp [h])

theorem Function.isSome_lookup_bindings {function : Function} {arguments : List Value}
    (hl : arguments.length = function.parameters.length) {name : String}
    (hn : name ∈ function.parameters.map Token.lexeme) :
    ((function.bindings arguments).lookup name).isSome := by
  refine (Function.lookup_foldl_insert _ [] name).1.2 (.inr ?_)
  obtain ⟨p, hp, rfl⟩ := List.mem_map.1 hn
  rw [← List.map_fst_zip (Nat.le_of_eq hl.symm)] at hp
  obtain ⟨pair, hm, rfl⟩ := List.mem_map.1 hp
  exact List.mem_map.2 ⟨pair, hm, rfl⟩

theorem Function.mem_of_lookup_bindings {function : Function} {arguments : List Value}
    {name : String} {v : Value} (hv : (function.bindings arguments).lookup name = some v) :
    v ∈ arguments := by
  rcases (Function.lookup_foldl_insert _ [] name).2 v hv with h | h
  · cases h
  · obtain ⟨⟨p, w⟩, hm, rfl⟩ := List.mem_map.1 h
    exact (List.of_mem_zip hm).2

-- ---------------------------------------------------------------------------
-- Runs of accepted parts
-- ---------------------------------------------------------------------------

def SoundValue (v : Value) (m : Machine) : Prop :=
  m.Sound ∧ v.Sound m.heap

def SoundCompletion (c : Completion) (m : Machine) : Prop :=
  m.Sound ∧ c.value.Sound m.heap

theorem Stmt.execute_binds {n : Nat} {t : Stmt} {m m' : Machine} {c : Completion} {name : Token}
    (h : t.execute n m = .done c m') (hd : t.declared? = some name)
    (hc : m.current < m.heap.frames.size) : (m'.heap.own? m'.current name.lexeme).isSome := by
  have bound {m₁ : Machine} {v : Value} (hc : m₁.current < m₁.heap.frames.size) :
      ((m₁.heap.define m₁.current name.lexeme v).own? m₁.current name.lexeme).isSome := by
    rw [Heap.own?_define, if_pos ⟨rfl, hc, rfl⟩]
    rfl
  cases n with
  | zero => cases h
  | succ n =>
    cases t with
    | «variable» name' initializer =>
      cases hd
      cases initializer with
      | none =>
        cases h
        exact bound hc
      | some e =>
        rw [Stmt.execute, Run.bind_apply] at h
        cases he : e.evaluate n m with
        | done v m₁ =>
          have hg := (e.evaluate_grows n).done he
          rw [he] at h
          cases h
          exact bound (hg.current ▸ Nat.lt_of_lt_of_le hc hg.heap.size)
        | failed | unfinished =>
          rw [he] at h
          cases h
    | function name' parameters body =>
      cases hd
      cases h
      exact bound hc
    | _ => cases hd

/-- The frame that fits the scopes before a statement fits those after it. -/
theorem Stmt.execute_fits {n : Nat} {t : Stmt} {s : Scopes} {m m' : Machine} {c : Completion}
    (hm : m.Sound) (hf : m.heap.Fits s.locals m.current) (h : t.execute n m = .done c m') :
    m'.heap.Fits (s.after t).locals m'.current := by
  have hg := (t.execute_grows n).done h
  have kept : m'.heap.Fits s.locals m'.current := hg.current ▸ hf.mono hg.heap
  cases hd : t.declared? with
  | none => rwa [Scopes.after_of_undeclared hd]
  | some name =>
    rw [Scopes.after, hd, Scopes.locals_introduce]
    exact kept.introduce (Stmt.execute_binds h hd (hf.lt_size hm.global))

theorem Run.define_sound {m : Machine} (hm : m.Sound) (name : String) {v : Value}
    (hv : v.Sound m.heap) :
    (Run.define name v m).Ends (fun _ m' => m'.Sound) Machine.Sound :=
  hm.define m.current name (hv.mono (.define ..))

theorem Run.read_sound {m : Machine} (hm : m.Sound) (name : Token) (depth : Option Nat) :
    (Run.read name depth m).Ends SoundValue Machine.Sound := by
  cases h : Run.read name depth m with
  | done v m' =>
    obtain ⟨rfl, frame, hv⟩ := Run.read_eq_done h
    exact ⟨hm, hm.heap frame _ v hv⟩
  | failed e m' =>
    obtain ⟨rfl, -⟩ := Run.read_eq_failed h
    exact hm
  | unfinished => trivial

theorem Run.assign_sound {m : Machine} (hm : m.Sound) (name : Token) (depth : Option Nat)
    {v : Value}
    (hv : v.Sound m.heap) :
    (Run.assign name depth v m).Ends (fun _ m' => m'.Sound) Machine.Sound := by
  have written (frame : Nat) :
      ({ m with heap := m.heap.define frame name.lexeme v } : Machine).Sound :=
    hm.define frame _ (hv.mono (.define ..))
  rcases Run.assign_cases name m depth v with ⟨frame, assigned⟩ | ⟨-, missed⟩
  · rw [assigned]
    exact written frame
  · rw [missed]
    exact hm

theorem Run.check_sound {m : Machine} (hm : m.Sound) {line : Nat} {r : Except RuntimeCause Value}
    (hr : ∀ v, r = .ok v → v.Sound m.heap) :
    (Run.check line r m).Ends SoundValue Machine.Sound := by
  cases r with
  | ok v => exact ⟨hm, hr v rfl⟩
  | error cause => exact hm

theorem Machine.Sound.enteredCall {m : Machine} (hm : m.Sound) {s : Scopes} {function : Function}
    {frame : Nat} {arguments : List Value} (hs : Settled s.locals) (hf : m.heap.Fits s.locals frame)
    (hvs : ∀ v ∈ arguments, v.Sound m.heap) (hl : arguments.length = function.parameters.length) :
    (m.entered frame (function.bindings arguments)).Sound ∧
      (m.entered frame (function.bindings arguments)).heap.Fits
        (s.inside function.parameters).locals m.heap.frames.size := by
  refine ⟨hm.entered frame fun _ v hv => hvs v (Function.mem_of_lookup_bindings hv), ?_⟩
  rw [Scopes.locals_inside]
  refine hf.enter hs hm.global fun name hn => ?_
  rw [Scope.lookup_introduceAll] at hn
  split at hn
  · next hp => exact Function.isSome_lookup_bindings hl hp
  · cases hn

def SoundValues (vs : List Value) (m : Machine) : Prop :=
  m.Sound ∧ ∀ v ∈ vs, v.Sound m.heap

/-- A function that a statement declares is bound before it can be called: its frame then fits the
scopes of its declaration. -/
theorem Run.declareFunction_sound {m : Machine} (hm : m.Sound) {s : Scopes}
    (hf : m.heap.Fits s.locals m.current) (hs : Settled s.locals) (function : Function)
    (ha : function.Accepted (s.introduce function.name.lexeme)) :
    ((do
      let value ← Run.makeClosure function
      Run.define function.name.lexeme value
      pure Completion.normal : Run Completion) m).Ends SoundCompletion Machine.Sound := by
  let c : Callable := { identity := m.nextIdentity, callee := .closure function m.current }
  have hg := Heap.Grows.define m.heap m.current function.name.lexeme (.callable c)
  have bound : ((m.heap.define m.current function.name.lexeme (.callable c)).own? m.current
      function.name.lexeme).isSome := by
    rw [Heap.own?_define, if_pos ⟨rfl, hf.lt_size hm.global, rfl⟩]
    rfl
  have closed : c.Sound (m.heap.define m.current function.name.lexeme (.callable c)) := by
    rintro _ _ ⟨⟩
    refine ⟨s.introduce function.name.lexeme, ?_, ?_, ha⟩
    · rw [Scopes.locals_introduce]
      exact hs.modifyHead _
    · rw [Scopes.locals_introduce]
      exact (hf.mono hg).introduce bound
  have defined := hm.define m.current function.name.lexeme (v := .callable c) closed
  exact ⟨⟨defined.heap, defined.global⟩, trivial⟩

mutual

theorem Expr.evaluate_sound : ∀ (n : Nat) (e : Expr) {m : Machine}, m.Sound →
    (e.evaluate n m).Ends SoundValue Machine.Sound
  | 0, _, _, _ => trivial
  | _ + 1, .literal value, _, hm => ⟨hm, Value.sound_ofConstant _ value⟩
  | n + 1, .grouping inner, _, hm => inner.evaluate_sound n hm
  | n + 1, .unary operator operand, m, hm => by
    refine .bind (operand.evaluate_sound n hm) ?_
    rintro a m' - ⟨hm', -⟩
    exact Run.check_sound hm' fun v => Value.sound_unary
  | n + 1, .binary left operator right, m, hm => by
    refine .bind (left.evaluate_sound n hm) ?_
    rintro a m₁ - ⟨hm₁, -⟩
    refine .bind (right.evaluate_sound n hm₁) ?_
    rintro b m₂ - ⟨hm₂, -⟩
    exact Run.check_sound hm₂ fun v => Value.sound_binary
  | n + 1, .logical left operator right, m, hm => by
    refine .bind (left.evaluate_sound n hm) ?_
    rintro a m' - ⟨hm', ha⟩
    generalize operator.kind = kind
    split
    · split
      · exact ⟨hm', ha⟩
      · exact right.evaluate_sound n hm'
    · split
      · exact right.evaluate_sound n hm'
      · exact ⟨hm', ha⟩
    · exact hm'
  | _ + 1, .variable name depth, _, hm => Run.read_sound hm name depth
  | n + 1, .assign name value depth, m, hm => by
    refine .bind (value.evaluate_sound n hm) ?_
    rintro v m' - ⟨hm', hv⟩
    refine .bind (Run.assign_sound hm' name depth hv) ?_
    intro _ m'' hw hm''
    exact ⟨hm'', hv.mono ((Run.Grows.assign name depth v).done hw).heap⟩
  | n + 1, .call callee paren arguments, m, hm => by
    refine .bind (callee.evaluate_sound n hm) ?_
    rintro f m₁ - ⟨hm₁, hf⟩
    refine .bind (Expr.evaluateList_sound n arguments hm₁) ?_
    rintro values m₂ hv ⟨hm₂, hvs⟩
    have hg := (Expr.evaluateList_grows n arguments).done hv
    cases f with
    | callable c =>
      dsimp only
      split
      · next hl => exact c.call_sound n values hm₂ (Callable.Sound.mono hg.heap hf) hvs hl
      · exact hm₂
    | _ => exact hm₂

theorem Expr.evaluateList_sound : ∀ (n : Nat) (es : List Expr) {m : Machine}, m.Sound →
    (Expr.evaluateList n es m).Ends SoundValues Machine.Sound
  | 0, _, _, _ => trivial
  | _ + 1, [], _, hm => ⟨hm, by simp⟩
  | n + 1, e :: rest, m, hm => by
    refine .bind (e.evaluate_sound n hm) ?_
    rintro v m₁ - ⟨hm₁, hv⟩
    refine .bind (Expr.evaluateList_sound n rest hm₁) ?_
    rintro vs m₂ hr ⟨hm₂, hvs⟩
    have hg := (Expr.evaluateList_grows n rest).done hr
    refine ⟨hm₂, fun w hw => ?_⟩
    rcases List.mem_cons.1 hw with rfl | hw
    · exact hv.mono hg.heap
    · exact hvs w hw

theorem Callable.call_sound : ∀ (n : Nat) (c : Callable) (arguments : List Value) {m : Machine},
    m.Sound → c.Sound m.heap → (∀ v ∈ arguments, v.Sound m.heap) → arguments.length = c.arity →
    (c.call n arguments m).Ends SoundValue Machine.Sound
  | 0, _, _, _, _, _, _, _ => trivial
  | n + 1, c, arguments, m, hm, hc, hvs, hl => by
    rw [Callable.call]
    cases hf : c.callee with
    | clock => exact ⟨⟨hm.heap, hm.global⟩, trivial⟩
    | closure function frame =>
      obtain ⟨s, hs, hfit, ha⟩ := hc function frame hf
      have entered := hm.enteredCall hs hfit hvs (by simpa [Callable.arity, hf] using hl)
      have body := Stmt.executeList_sound n function.body entered.1 entered.2 (hs.inside _) ha.2
      refine .bind (Q := SoundCompletion) ?_ fun completion m' _ h => h
      rw [Run.inNewFrame_apply]
      exact body.onMachine (fun _ _ h => ⟨h.1.withCurrent _, h.2⟩) (fun _ h => h.withCurrent _)

theorem Stmt.execute_sound : ∀ (n : Nat) (t : Stmt) {s : Scopes} {inFunction : Bool} {m : Machine},
    m.Sound → m.heap.Fits s.locals m.current → Settled s.locals → t.Accepted s inFunction →
    (t.execute n m).Ends SoundCompletion Machine.Sound
  | 0, _, _, _, _, _, _, _, _ => trivial
  | n + 1, .expression value, _, _, _, hm, _, _, _ => by
    refine .bind (value.evaluate_sound n hm) ?_
    rintro v m' - ⟨hm', -⟩
    exact ⟨hm', trivial⟩
  | n + 1, .print value, _, _, _, hm, _, _, _ => by
    refine .bind (value.evaluate_sound n hm) ?_
    rintro v m' - ⟨hm', -⟩
    exact ⟨⟨hm'.heap, hm'.global⟩, trivial⟩
  | _ + 1, .variable name none, _, _, _, hm, _, _, _ =>
    .bind (Run.define_sound hm name.lexeme trivial) fun _ _ _ hm' => ⟨hm', trivial⟩
  | n + 1, .variable name (some e), _, _, _, hm, _, _, _ => by
    refine .bind (e.evaluate_sound n hm) ?_
    rintro v m' - ⟨hm', hv⟩
    exact .bind (Run.define_sound hm' name.lexeme hv) fun _ _ _ hm'' => ⟨hm'', trivial⟩
  | n + 1, .block body, s, _, m, hm, hf, hs, ha => by
    have fits :
        (m.entered m.current []).heap.Fits s.enter.locals (m.entered m.current []).current :=
      hf.enter hs hm.global (by simp)
    have := Stmt.executeList_sound n body (hm.entered m.current (by simp)) fits hs.enter ha
    rw [Stmt.execute, Run.inBlock, Run.inNewFrame_apply]
    exact this.onMachine (fun _ _ h => ⟨h.1.withCurrent _, h.2⟩) (fun _ h => h.withCurrent _)
  | n + 1, .branch condition consequent alternative, s, inFunction, m, hm, hf, hs, ha => by
    refine .bind (condition.evaluate_sound n hm) ?_
    rintro v m' hc ⟨hm', -⟩
    have hg := (condition.evaluate_grows n).done hc
    have fits : m'.heap.Fits s.locals m'.current := hg.current ▸ hf.mono hg.heap
    cases alternative with
    | none =>
      split
      · exact consequent.execute_sound n hm' fits hs ha.2.2
      · exact ⟨hm', trivial⟩
    | some other =>
      split
      · exact consequent.execute_sound n hm' fits hs ha.2.1.2
      · exact other.execute_sound n hm' fits hs ha.2.2.2
  | n + 1, .loop condition body, s, inFunction, m, hm, hf, hs, ha => by
    refine .bind (condition.evaluate_sound n hm) ?_
    rintro v m₁ hc ⟨hm₁, -⟩
    have hg := (condition.evaluate_grows n).done hc
    have fits : m₁.heap.Fits s.locals m₁.current := hg.current ▸ hf.mono hg.heap
    split
    · refine .bind (body.execute_sound n hm₁ fits hs ha.2.2) ?_
      rintro completion m₂ hb ⟨hm₂, hv⟩
      have hg := (body.execute_grows n).done hb
      cases completion with
      | normal =>
        exact Stmt.execute_sound n (.loop condition body) hm₂ (hg.current ▸ fits.mono hg.heap) hs ha
      | returned value => exact ⟨hm₂, hv⟩
    · exact ⟨hm₁, trivial⟩
  | _ + 1, .function name parameters body, _, _, _, hm, hf, hs, ha =>
    Run.declareFunction_sound hm hf hs { name := name, parameters := parameters, body := body } ha.2
  | _ + 1, .return _ none, _, _, _, hm, _, _, _ => ⟨hm, trivial⟩
  | n + 1, .return _ (some value), _, _, _, hm, _, _, _ =>
    .bind (value.evaluate_sound n hm) fun _ _ _ h => h

theorem Stmt.executeList_sound : ∀ (n : Nat) (ts : List Stmt) {s : Scopes} {inFunction : Bool}
    {m : Machine}, m.Sound → m.heap.Fits s.locals m.current → Settled s.locals →
    Stmt.ListAccepted s inFunction ts → (Stmt.executeList n ts m).Ends SoundCompletion Machine.Sound
  | 0, _, _, _, _, _, _, _, _ => trivial
  | _ + 1, [], _, _, _, hm, _, _, _ => ⟨hm, trivial⟩
  | n + 1, first :: rest, s, inFunction, m, hm, hf, hs, ha => by
    refine .bind (first.execute_sound n hm hf hs ha.1) ?_
    rintro completion m' h ⟨hm', hv⟩
    cases completion with
    | normal =>
      exact Stmt.executeList_sound n rest hm' (Stmt.execute_fits hm hf h) (hs.after first) ha.2
    | returned value => exact ⟨hm', hv⟩

end

theorem Stmt.runProgram_sound (n : Nat) (ts : List Stmt) {s : Scopes} {m : Machine} (hm : m.Sound)
    (hf : m.heap.Fits s.locals m.current) (hs : Settled s.locals)
    (ha : Stmt.ListAccepted s false ts) :
    (Stmt.runProgram n ts m).Ends (fun _ m' => m'.Sound) Machine.Sound := by
  induction ts generalizing s m with
  | nil => exact hm
  | cons first rest ih =>
    refine .bind (first.execute_sound n hm hf hs ha.1) ?_
    rintro completion m' h ⟨hm', -⟩
    exact ih hm' (Stmt.execute_fits hm hf h) (hs.after first) ha.2

-- ---------------------------------------------------------------------------
-- Every point
-- ---------------------------------------------------------------------------

/-- A part that may run on a machine: accepted in scopes that the current frame fits. -/
def Part.Fits (m : Machine) : Part → Prop
  | .expression e => ∃ s : Scopes, m.heap.Fits s.locals m.current ∧ e.Accepted s
  | .arguments es => ∃ s : Scopes, m.heap.Fits s.locals m.current ∧ Expr.ListAccepted s es
  | .call c values =>
    c.Sound m.heap ∧ (∀ v ∈ values, v.Sound m.heap) ∧ values.length = c.arity
  | .statement t => ∃ (s : Scopes) (inFunction : Bool),
    m.heap.Fits s.locals m.current ∧ Settled s.locals ∧ t.Accepted s inFunction
  | .statements ts => ∃ (s : Scopes) (inFunction : Bool),
    m.heap.Fits s.locals m.current ∧ Settled s.locals ∧ Stmt.ListAccepted s inFunction ts
  | .program ts => ∃ s : Scopes,
    m.heap.Fits s.locals m.current ∧ Settled s.locals ∧ Stmt.ListAccepted s false ts

theorem Machine.Grows.fits {m m' : Machine} (hg : m.Grows m') {scopes : List Scope}
    (hf : m.heap.Fits scopes m.current) : m'.heap.Fits scopes m'.current :=
  hg.current ▸ hf.mono hg.heap

theorem Enters.fits {n k : Nat} {p q : Part} {m m' : Machine} (h : Enters n p m k q m')
    (hm : m.Sound) (hp : p.Fits m) : m'.Sound ∧ q.Fits m' := by
  -- what an expression leaves behind for the parts after it
  have evaluated {n : Nat} {e : Expr} {a : Value} {m m' : Machine} (hm : m.Sound)
      (h : e.evaluate n m = .done a m') : m'.Sound ∧ a.Sound m'.heap ∧ m.Grows m' :=
    have ⟨hm', ha⟩ := (e.evaluate_sound n hm).of_done h
    ⟨hm', ha, (e.evaluate_grows n).done h⟩
  cases h with
  | grouping | operand =>
    obtain ⟨s, hf, ha⟩ := hp
    exact ⟨hm, s, hf, ha⟩
  | binaryLeft | logicalLeft | assigned | callee | firstArgument =>
    obtain ⟨s, hf, ha⟩ := hp
    exact ⟨hm, s, hf, ha.1⟩
  | binaryRight he | logicalRight he _ | arguments he | otherArguments he =>
    obtain ⟨s, hf, ha⟩ := hp
    obtain ⟨hm', -, hg⟩ := evaluated hm he
    exact ⟨hm', s, hg.fits hf, ha.2⟩
  | call hc hv hl =>
    obtain ⟨hm₁, hf, -⟩ := evaluated hm hc
    obtain ⟨hm₂, hvs⟩ := (Expr.evaluateList_sound _ _ hm₁).of_done hv
    have hg := (Expr.evaluateList_grows _ _).done hv
    exact ⟨hm₂, Callable.Sound.mono hg.heap hf, hvs, hl⟩
  | @body _ c _ _ function frame hc =>
    obtain ⟨hs, hvs, hl⟩ := hp
    obtain ⟨s, hset, hf, ha⟩ := hs function frame hc
    have entered := hm.enteredCall hset hf hvs (by simpa [Callable.arity, hc] using hl)
    exact ⟨entered.1, s.inside _, true, entered.2, hset.inside _, ha.2⟩
  | expression | printed =>
    obtain ⟨s, inFunction, hf, -, ha⟩ := hp
    exact ⟨hm, s, hf, ha⟩
  | @initializer _ name e =>
    obtain ⟨s, inFunction, hf, -, ha⟩ := hp
    refine ⟨hm, s.declare name.lexeme, ?_, ha.2 e rfl⟩
    rw [Scopes.locals_declare]
    exact hf.declare _
  | block =>
    obtain ⟨s, inFunction, hf, hs, ha⟩ := hp
    exact ⟨hm.entered _ (by simp), s.enter, inFunction, hf.enter hs hm.global (by simp),
      hs.enter, ha⟩
  | @branchCondition _ _ _ alternative =>
    obtain ⟨s, inFunction, hf, -, ha⟩ := hp
    cases alternative <;> exact ⟨hm, s, hf, ha.1⟩
  | @consequent _ _ _ alternative _ _ _ hc _ =>
    obtain ⟨s, inFunction, hf, hs, ha⟩ := hp
    obtain ⟨hm', -, hg⟩ := evaluated hm hc
    cases alternative with
    | none => exact ⟨hm', s, inFunction, hg.fits hf, hs, ha.2.2⟩
    | some other => exact ⟨hm', s, inFunction, hg.fits hf, hs, ha.2.1.2⟩
  | alternative hc _ =>
    obtain ⟨s, inFunction, hf, hs, ha⟩ := hp
    obtain ⟨hm', -, hg⟩ := evaluated hm hc
    exact ⟨hm', s, inFunction, hg.fits hf, hs, ha.2.2.2⟩
  | loopCondition =>
    obtain ⟨s, inFunction, hf, -, ha⟩ := hp
    exact ⟨hm, s, hf, ha.1⟩
  | loopBody hc _ =>
    obtain ⟨s, inFunction, hf, hs, ha⟩ := hp
    obtain ⟨hm', -, hg⟩ := evaluated hm hc
    exact ⟨hm', s, inFunction, hg.fits hf, hs, ha.2.2⟩
  | loopAgain hc _ hb =>
    obtain ⟨s, inFunction, hf, hs, ha⟩ := hp
    obtain ⟨hm₁, -, hg⟩ := evaluated hm hc
    obtain ⟨hm₂, -⟩ := (Stmt.execute_sound _ _ hm₁ (hg.fits hf) hs ha.2.2).of_done hb
    have hg' := (Stmt.execute_grows _ _).done hb
    exact ⟨hm₂, s, inFunction, hg'.fits (hg.fits hf), hs, ha⟩
  | returned =>
    obtain ⟨s, inFunction, hf, -, ha⟩ := hp
    exact ⟨hm, s, hf, ha.2 _ rfl⟩
  | first =>
    obtain ⟨s, inFunction, hf, hs, ha⟩ := hp
    exact ⟨hm, s, inFunction, hf, hs, ha.1⟩
  | rest ht =>
    obtain ⟨s, inFunction, hf, hs, ha⟩ := hp
    obtain ⟨hm', -⟩ := (Stmt.execute_sound _ _ hm hf hs ha.1).of_done ht
    exact ⟨hm', s.after _, inFunction, Stmt.execute_fits hm hf ht, hs.after _, ha.2⟩
  | programFirst =>
    obtain ⟨s, hf, hs, ha⟩ := hp
    exact ⟨hm, s, false, hf, hs, ha.1⟩
  | programRest ht =>
    obtain ⟨s, hf, hs, ha⟩ := hp
    obtain ⟨hm', -⟩ := (Stmt.execute_sound _ _ hm hf hs ha.1).of_done ht
    exact ⟨hm', s.after _, Stmt.execute_fits hm hf ht, hs.after _, ha.2⟩

/-- At every point of a run the part that runs there fits the machine. -/
theorem Reaches.fits {n k : Nat} {p q : Part} {m m' : Machine} (h : Reaches n p m k q m')
    (hm : m.Sound) (hp : p.Fits m) : m'.Sound ∧ q.Fits m' := by
  induction h with
  | here => exact ⟨hm, hp⟩
  | step he _ ih =>
    obtain ⟨hm', hq⟩ := he.fits hm hp
    exact ih hm' hq

end Lox
