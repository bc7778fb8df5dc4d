import Lox.Proofs.Machine.Soundness
import Lox.Proofs.Scope.Sequence

/-!
# Where global names come from

In an accepted program only a declaration at top level binds a new global name: blocks and calls
bind names in frames of their own, a name with a distance is written inside the global frame's
frames, and a name without one has to be bound before it is written. So what a program leaves bound
among the globals is known after it (`GlobalsKnown.runProgram`).
-/

namespace Lox

variable {α : Type} {allowed : String → Prop}

-- ---------------------------------------------------------------------------
-- Heaps
-- ---------------------------------------------------------------------------

namespace Heap

def GlobalsWithin (allowed : String → Prop) (h : Heap) : Prop :=
  ∀ name, (h.own? globalFrame name).isSome → allowed name

theorem GlobalsWithin.define {h : Heap} (hw : h.GlobalsWithin allowed) {frame : Nat} {name : String}
    (hn : frame = globalFrame → allowed name) (value : Value) :
    (h.define frame name value).GlobalsWithin allowed := by
  intro key hk
  rw [own?_define] at hk
  split at hk
  · next here => exact here.2.2 ▸ hn here.1
  · exact hw key hk

theorem GlobalsWithin.push {h : Heap} (hw : h.GlobalsWithin allowed) (hz : 0 < h.frames.size)
    (outer : Nat) (own : Bindings) : (h.push outer own).2.GlobalsWithin allowed := by
  intro key hk
  have other : globalFrame ≠ h.frames.size := Nat.ne_of_lt hz
  rw [own?_push, if_neg other] at hk
  exact hw key hk

theorem Fits.ne_globalFrame {h : Heap} {scopes : List Scope} {frame : Nat}
    (hf : h.Fits scopes frame) (hs : scopes ≠ []) : frame ≠ globalFrame := by
  cases hf with
  | globals => exact absurd rfl hs
  | frame he => exact Nat.ne_of_gt (Nat.zero_lt_of_lt (enclosing?_lt he))

theorem Fits.eq_globalFrame {h : Heap} {frame : Nat} (hf : h.Fits [] frame) :
    frame = globalFrame := by
  cases hf
  rfl

theorem Fits.ancestor_ne_globalFrame {h : Heap} {scopes : List Scope} {frame : Nat}
    (hf : h.Fits scopes frame) {p : Scope → Bool} {distance : Nat}
    (hd : scopes.findIdx? p = some distance) : h.ancestor frame distance ≠ globalFrame := by
  induction hf generalizing distance with
  | globals => cases hd
  | frame he ho hs hb ih =>
    rw [List.findIdx?_cons] at hd
    split at hd
    · cases hd
      exact Fits.ne_globalFrame (.frame he ho hs hb) (List.cons_ne_nil _ _)
    · obtain ⟨d, outward, rfl⟩ := Option.map_eq_some_iff.1 hd
      rw [ancestor, he]
      exact ih outward

end Heap

-- ---------------------------------------------------------------------------
-- Machines
-- ---------------------------------------------------------------------------

def Outcome.GlobalsWithin (allowed : String → Prop) (o : Outcome α) : Prop :=
  o.Ends (fun _ m => m.heap.GlobalsWithin allowed) fun m => m.heap.GlobalsWithin allowed

/-- A machine at a place with the given scopes, with no global names but the given ones. -/
structure Machine.Stays (allowed : String → Prop) (s : Scopes) (m : Machine) : Prop where
  sound : m.Sound
  fits : m.heap.Fits s.locals m.current
  within : m.heap.GlobalsWithin allowed

namespace Machine.Stays

variable {s : Scopes} {m m' : Machine}

theorem evaluated (h : m.Stays allowed s) {n : Nat} {e : Expr} {v : Value}
    (he : e.evaluate n m = .done v m') (hw : m'.heap.GlobalsWithin allowed) :
    m'.Stays allowed s :=
  ⟨((e.evaluate_sound n h.sound).of_done he).1, ((e.evaluate_grows n).done he).fits h.fits, hw⟩

theorem executed (h : m.Stays allowed s) (hs : Settled s.locals) {n : Nat} {t : Stmt}
    {inFunction : Bool} {c : Completion} (ha : t.Accepted s inFunction)
    (he : t.execute n m = .done c m') (hw : m'.heap.GlobalsWithin allowed) :
    m'.Stays allowed (s.after t) :=
  ⟨((t.execute_sound n h.sound h.fits hs ha).of_done he).1, Stmt.execute_fits h.sound h.fits he, hw⟩

theorem declare (h : m.Stays allowed s) (name : String) : m.Stays allowed (s.declare name) :=
  ⟨h.sound, by rw [Scopes.locals_declare]; exact h.fits.declare name, h.within⟩

theorem enter (h : m.Stays allowed s) (hs : Settled s.locals) :
    (m.entered m.current []).Stays allowed s.enter :=
  ⟨h.sound.entered _ (by simp), h.fits.enter hs h.sound.global (by simp),
    h.within.push h.sound.global _ _⟩

theorem define (h : m.Stays allowed s) {name : String} (hn : s.locals = [] → allowed name)
    (value : Value) : (m.heap.define m.current name value).GlobalsWithin allowed := by
  refine h.within.define (fun top => hn ?_) value
  exact Classical.byContradiction fun inner => h.fits.ne_globalFrame inner top

theorem read (h : m.Stays allowed s) (name : Token) (depth : Option Nat) :
    (Run.read name depth m).GlobalsWithin allowed := by
  rcases Run.read_cases name m depth with ⟨_, value, -, read⟩ | missed
  · rw [read]
    exact h.within
  · rw [missed]
    exact h.within

theorem assign (h : m.Stays allowed s) (name : Token) (value : Value) :
    (Run.assign name (s.distance name.lexeme) value m).GlobalsWithin allowed := by
  cases hd : s.distance name.lexeme with
  | some distance =>
    exact h.within.define (fun top => absurd top (h.fits.ancestor_ne_globalFrame hd)) value
  | none =>
    rw [Run.assign_global]
    split
    · next bound => exact h.within.define (fun _ => h.within _ bound) value
    · exact h.within

theorem check (h : m.Stays allowed s) (line : Nat) (r : Except RuntimeCause Value) :
    (Run.check line r m).GlobalsWithin allowed := by
  cases r with
  | ok value => exact h.within
  | error cause => exact h.within

end Machine.Stays

theorem Outcome.GlobalsWithin.restored {o : Outcome α} (h : o.GlobalsWithin allowed) (frame : Nat) :
    (o.onMachine ({ · with current := frame })).GlobalsWithin allowed :=
  Outcome.Ends.onMachine h (fun _ _ hw => hw) (fun _ hw => hw)

theorem Scopes.locals_after_ne_nil {s : Scopes} (hl : s.locals ≠ []) (t : Stmt) :
    (s.after t).locals ≠ [] := by
  unfold after
  split
  · rw [locals_introduce]
    simpa using hl
  · exact hl

-- ---------------------------------------------------------------------------
-- Runs of accepted parts
-- ---------------------------------------------------------------------------

mutual

theorem Expr.evaluate_within : ∀ (n : Nat) (e : Expr) {s : Scopes} {m : Machine},
    m.Stays allowed s → e.Accepted s → (e.evaluate n m).GlobalsWithin allowed
  | 0, _, _, _, _, _ => trivial
  | _ + 1, .literal _, _, _, h, _ => h.within
  | n + 1, .grouping inner, _, _, h, ha => inner.evaluate_within n h ha
  | n + 1, .unary _ operand, _, _, h, ha => by
    refine .bind (operand.evaluate_within n h ha) fun v m' he hw => ?_
    exact (h.evaluated he hw).check _ _
  | n + 1, .binary left _ right, _, _, h, ha => by
    refine .bind (left.evaluate_within n h ha.1) fun a m₁ he hw => ?_
    have h₁ := h.evaluated he hw
    refine .bind (right.evaluate_within n h₁ ha.2) fun b m₂ he hw => ?_
    exact (h₁.evaluated he hw).check _ _
  | n + 1, .logical left operator right, _, _, h, ha => by
    refine .bind (left.evaluate_within n h ha.1) fun a m' he hw => ?_
    have other := right.evaluate_within n (h.evaluated he hw) ha.2
    generalize operator.kind = kind
    split
    · split
      · exact hw
      · exact other
    · split
      · exact other
      · exact hw
    · exact hw
  | _ + 1, .variable name depth, _, _, h, _ => h.read name depth
  | n + 1, .assign name value depth, _, _, h, ha => by
    refine .bind (value.evaluate_within n h ha.1) fun v m' he hw => ?_
    have assigned := (h.evaluated he hw).assign name v
    rw [← ha.2] at assigned
    exact .bind assigned fun _ _ _ hw' => hw'
  | n + 1, .call callee paren arguments, _, _, h, ha => by
    refine .bind (callee.evaluate_within n h ha.1) fun f m₁ hf hw => ?_
    have h₁ := h.evaluated hf hw
    refine .bind (Expr.evaluateList_within n arguments h₁ ha.2) fun values m₂ hv hw => ?_
    have sound := ((callee.evaluate_sound n h.sound).of_done hf).2
    have sounds := (Expr.evaluateList_sound n arguments h₁.sound).of_done hv
    have grows := (Expr.evaluateList_grows n arguments).done hv
    cases f with
    | callable c =>
      dsimp only
      split
      · next hl =>
        exact c.call_within n values sounds.1 (Callable.Sound.mono grows.heap sound) sounds.2 hl hw
      · exact hw
    | _ => exact hw

theorem Expr.evaluateList_within : ∀ (n : Nat) (es : List Expr) {s : Scopes} {m : Machine},
    m.Stays allowed s → Expr.ListAccepted s es → (Expr.evaluateList n es m).GlobalsWithin allowed
  | 0, _, _, _, _, _ => trivial
  | _ + 1, [], _, _, h, _ => h.within
  | n + 1, e :: rest, _, _, h, ha => by
    refine .bind (e.evaluate_within n h ha.1) fun v m' he hw => ?_
    exact .bind (Expr.evaluateList_within n rest (h.evaluated he hw) ha.2) fun _ _ _ hw' => hw'

theorem Callable.call_within : ∀ (n : Nat) (c : Callable) (arguments : List Value) {m : Machine},
    m.Sound → c.Sound m.heap → (∀ v ∈ arguments, v.Sound m.heap) → arguments.length = c.arity →
    m.heap.GlobalsWithin allowed → (c.call n arguments m).GlobalsWithin allowed
  | 0, _, _, _, _, _, _, _, _ => trivial
  | n + 1, c, arguments, m, hm, hc, hvs, hl, hw => by
    rw [Callable.call]
    cases hf : c.callee with
    | clock => exact hw
    | closure function frame =>
      obtain ⟨s, hs, hfit, ha⟩ := hc function frame hf
      have entered := hm.enteredCall hs hfit hvs (by simpa [Callable.arity, hf] using hl)
      have inner : (s.inside function.parameters).locals ≠ [] := by
        rw [Scopes.locals_inside]
        exact List.cons_ne_nil _ _
      have body := Stmt.executeList_within n function.body
        ⟨entered.1, entered.2, hw.push hm.global _ _⟩ (hs.inside _) ha.2 inner
      refine .bind ?_ fun _ _ _ hw' => hw'
      rw [Run.inNewFrame_apply]
      exact body.restored m.current

theorem Stmt.execute_within : ∀ (n : Nat) (t : Stmt) {s : Scopes} {inFunction : Bool} {m : Machine},
    m.Stays allowed s → Settled s.locals → t.Accepted s inFunction →
    (s.locals = [] → ∀ name, t.declared? = some name → allowed name.lexeme) →
    (t.execute n m).GlobalsWithin allowed
  | 0, _, _, _, _, _, _, _, _ => trivial
  | n + 1, .expression value, _, _, _, h, _, ha, _ =>
    .bind (value.evaluate_within n h ha) fun _ _ _ hw => hw
  | n + 1, .print value, _, _, _, h, _, ha, _ =>
    .bind (value.evaluate_within n h ha) fun _ _ _ hw => hw
  | _ + 1, .variable name none, _, _, _, h, _, _, hd => h.define (fun top => hd top name rfl) _
  | n + 1, .variable name (some e), _, _, _, h, _, ha, hd => by
    refine .bind (e.evaluate_within n (h.declare name.lexeme) (ha.2 e rfl)) fun v m' he hw => ?_
    exact (h.evaluated he hw).define (fun top => hd top name rfl) v
  | n + 1, .block body, s, _, m, h, hs, ha, _ => by
    rw [Stmt.execute, Run.inBlock, Run.inNewFrame_apply]
    refine Outcome.GlobalsWithin.restored ?_ m.current
    exact Stmt.executeList_within n body (h.enter hs) hs.enter ha (List.cons_ne_nil _ _)
  | n + 1, .branch condition consequent alternative, _, _, _, h, hs, ha, _ => by
    cases alternative with
    | none =>
      refine .bind (condition.evaluate_within n h ha.1) fun v m' he hw => ?_
      split
      · exact consequent.execute_within n (h.evaluated he hw) hs ha.2.2 (by simp [ha.2.1])
      · exact hw
    | some other =>
      refine .bind (condition.evaluate_within n h ha.1) fun v m' he hw => ?_
      have h' := h.evaluated he hw
      split
      · exact consequent.execute_within n h' hs ha.2.1.2 (by simp [ha.2.1.1])
      · exact other.execute_within n h' hs ha.2.2.2 (by simp [ha.2.2.1])
  | n + 1, .loop condition body, s, _, _, h, hs, ha, hd => by
    refine .bind (condition.evaluate_within n h ha.1) fun v m₁ he hw => ?_
    have h₁ := h.evaluated he hw
    split
    · refine .bind (body.execute_within n h₁ hs ha.2.2 (by simp [ha.2.1])) fun c m₂ he hw => ?_
      have h₂ := h₁.executed hs ha.2.2 he hw
      rw [Scopes.after_of_undeclared ha.2.1] at h₂
      cases c with
      | normal => exact Stmt.execute_within n (.loop condition body) h₂ hs ha hd
      | returned value => exact hw
    · exact hw
  | _ + 1, .function name _ _, _, _, _, h, _, _, hd => h.define (fun top => hd top name rfl) _
  | _ + 1, .return _ none, _, _, _, h, _, _, _ => h.within
  | n + 1, .return _ (some value), _, _, _, h, _, ha, _ =>
    .bind (value.evaluate_within n h (ha.2 value rfl)) fun _ _ _ hw => hw

theorem Stmt.executeList_within : ∀ (n : Nat) (ts : List Stmt) {s : Scopes} {inFunction : Bool}
    {m : Machine}, m.Stays allowed s → Settled s.locals → Stmt.ListAccepted s inFunction ts →
    s.locals ≠ [] → (Stmt.executeList n ts m).GlobalsWithin allowed
  | 0, _, _, _, _, _, _, _, _ => trivial
  | _ + 1, [], _, _, _, h, _, _, _ => h.within
  | n + 1, first :: rest, s, _, _, h, hs, ha, inner => by
    have one := first.execute_within n h hs ha.1 fun top => absurd top inner
    refine .bind one fun c m' he hw => ?_
    cases c with
    | normal =>
      exact Stmt.executeList_within n rest (h.executed hs ha.1 he hw) (hs.after first) ha.2
        (Scopes.locals_after_ne_nil inner first)
    | returned value => exact hw

end

-- ---------------------------------------------------------------------------
-- Programs
-- ---------------------------------------------------------------------------

namespace Scopes

/-- Every global name that is bound is declared. -/
def GlobalsKnown (s : Scopes) (h : Heap) : Prop :=
  h.GlobalsWithin fun name => s.globals.declares name

theorem globalsKnown_topLevel (m : Machine) : (topLevel m.globalNames).GlobalsKnown m.heap :=
  fun _ hn => declares_topLevel.2 (Heap.isSome_own?_iff.1 hn)

variable {s : Scopes}

theorem declares_after (hl : s.locals = []) (t : Stmt) {key : String}
    (h : s.globals.declares key ∨ ∃ name, t.declared? = some name ∧ key = name.lexeme) :
    (s.after t).globals.declares key := by
  unfold after
  cases hd : t.declared? with
  | none => simpa [hd] using h
  | some name =>
    refine (declares_introduce hl).2 (h.symm.imp ?_ id)
    rintro ⟨_, same, rfl⟩
    cases hd.symm.trans same
    rfl

theorem GlobalsKnown.runProgram {m m' : Machine} {n : Nat} {ts : List Stmt}
    (hk : s.GlobalsKnown m.heap) (hl : s.locals = []) (hm : m.Sound)
    (hc : m.current = Heap.globalFrame) (ha : Stmt.ListAccepted s false ts)
    (h : Stmt.runProgram n ts m = .done () m') : (s.afterAll ts).GlobalsKnown m'.heap := by
  induction ts generalizing s m with
  | nil =>
    cases h
    exact hk
  | cons first rest ih =>
    rw [Stmt.runProgram, Run.bind_apply] at h
    cases hf : first.execute n m with
    | done c m₁ =>
      rw [hf] at h
      have settled : Settled s.locals := by simp [Settled, hl]
      have stays : m.Stays (fun name => (s.after first).globals.declares name) s := by
        refine ⟨hm, hl ▸ hc ▸ .globals, fun key known => ?_⟩
        exact declares_after hl first (.inl (hk key known))
      have within := (first.execute_within n stays settled ha.1 fun _ name hn =>
        declares_after hl first (.inr ⟨name, hn, rfl⟩)).of_done hf
      have sound := ((first.execute_sound n hm stays.fits settled ha.1).of_done hf).1
      have current := ((first.execute_grows n).done hf).current.trans hc
      exact ih within (locals_after_eq_nil hl first) sound current ha.2 h
    | failed | unfinished =>
      rw [hf] at h
      cases h

end Scopes

end Lox
