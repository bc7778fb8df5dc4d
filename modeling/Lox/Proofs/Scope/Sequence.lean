import Lox.Proofs.Machine.Fitting

/-!
# Programs bound one behind the other

A program that follows another is bound in the scopes that the other leaves. Which globals are known
there has no effect on the distances of names; and the more globals are known the fewer errors there
are, since only a name that is not yet known can be read too early at top level.
-/

namespace Lox

-- ---------------------------------------------------------------------------
-- One program behind another
-- ---------------------------------------------------------------------------

/-- The scopes after statements at top level. -/
def Scopes.afterAll (s : Scopes) : List Stmt → Scopes
  | [] => s
  | first :: rest => (s.after first).afterAll rest

theorem Scopes.locals_afterAll_eq_nil {s : Scopes} (hl : s.locals = []) (ts : List Stmt) :
    (s.afterAll ts).locals = [] := by
  induction ts generalizing s with
  | nil => exact hl
  | cons first rest ih => exact ih (locals_after_eq_nil hl first)

/-! The globals that are known at top level, and after a declaration there. -/

theorem Scopes.declares_topLevel {names : List String} {name : String} :
    (Scopes.topLevel names).globals.declares name ↔ name ∈ names := by
  simp [topLevel, Scope.declares, List.lookup_isSome_iff]

section
variable {s : Scopes}

theorem Scopes.locals_declare_eq_nil (hl : s.locals = []) (name : String) :
    (s.declare name).locals = [] := by
  rw [locals_declare, hl]
  rfl

theorem Scopes.declares_mark (hl : s.locals = []) {name key : String} {ready : Bool} :
    (s.mark name ready).globals.declares key ↔ key = name ∨ s.globals.declares key := by
  simp [mark, hl]

theorem Scopes.declares_declare (hl : s.locals = []) {name key : String} :
    (s.declare name).globals.declares key ↔ key = name ∨ s.globals.declares key := by
  unfold declare
  split
  · next known =>
    refine ⟨.inr, fun h => h.elim ?_ id⟩
    rintro rfl
    simpa [hl] using known
  · exact declares_mark hl

theorem Scopes.declares_introduce (hl : s.locals = []) {name key : String} :
    (s.introduce name).globals.declares key ↔ key = name ∨ s.globals.declares key := by
  rw [introduce, define, declares_mark (locals_declare_eq_nil hl name), declares_declare hl]
  exact ⟨fun h => h.elim .inl id, .inr⟩

end

theorem Stmt.bindList_append (s : Scopes) (before after : List Stmt) :
    Stmt.bindList s (before ++ after) =
      Stmt.bindList s before ++ Stmt.bindList (s.afterAll before) after := by
  induction before generalizing s with
  | nil => rfl
  | cons first rest ih => exact congrArg (first.bind s :: ·) (ih (s.after first))

theorem Stmt.listBindingErrors_append (s : Scopes) (inFunction : Bool) (before after : List Stmt) :
    Stmt.listBindingErrors s inFunction (before ++ after) =
      Stmt.listBindingErrors s inFunction before ++
        Stmt.listBindingErrors (s.afterAll before) inFunction after := by
  induction before generalizing s with
  | nil => rfl
  | cons first rest ih =>
    rw [List.cons_append, listBindingErrors, listBindingErrors, ih, List.append_assoc]
    rfl

/-- The names that statements declare in the scope they stand in. -/
def Stmt.declaredNames (ts : List Stmt) : List String :=
  ts.filterMap fun t => t.declared?.map Token.lexeme

theorem Stmt.declaredNames_cons (t : Stmt) (rest : List Stmt) :
    Stmt.declaredNames (t :: rest) =
      (t.declared?.map Token.lexeme).toList ++ Stmt.declaredNames rest := by
  cases h : t.declared? <;> simp [declaredNames, h]

theorem Stmt.declaredNames_append (before after : List Stmt) :
    Stmt.declaredNames (before ++ after) =
      Stmt.declaredNames before ++ Stmt.declaredNames after :=
  List.filterMap_append

theorem Stmt.declaredNames_bindList (s : Scopes) (ts : List Stmt) :
    Stmt.declaredNames (Stmt.bindList s ts) = Stmt.declaredNames ts := by
  induction ts generalizing s with
  | nil => rfl
  | cons t rest ih => rw [bindList, declaredNames_cons, declared?_bind, ih, ← declaredNames_cons]

theorem Stmt.take_bindList (s : Scopes) (ts : List Stmt) (k : Nat) :
    (Stmt.bindList s ts).take k = Stmt.bindList s (ts.take k) := by
  induction ts generalizing s k with
  | nil => simp [bindList]
  | cons t rest ih =>
    cases k with
    | zero => rfl
    | succ k => simp only [bindList, List.take_succ_cons, ih]

theorem Scopes.declares_afterAll {s : Scopes} (hl : s.locals = []) (ts : List Stmt)
    {name : String} :
    (s.afterAll ts).globals.declares name ↔
      s.globals.declares name ∨ name ∈ Stmt.declaredNames ts := by
  induction ts generalizing s with
  | nil => simp [afterAll, Stmt.declaredNames]
  | cons t rest ih =>
    rw [afterAll, ih (locals_after_eq_nil hl t), Stmt.declaredNames_cons,
      List.mem_append, ← or_assoc]
    refine or_congr_left ?_
    unfold after
    cases t.declared? with
    | none => simp
    | some token => simp [declares_introduce hl, or_comm]

-- ---------------------------------------------------------------------------
-- Distances do not depend on the globals
-- ---------------------------------------------------------------------------

section
variable {s s' : Scopes}

theorem Scopes.distance_of_locals (h : s.locals = s'.locals) (name : String) :
    s.distance name = s'.distance name := by
  rw [distance, distance, h]

theorem Scopes.declare_of_locals (h : s.locals = s'.locals) (name : String) :
    (s.declare name).locals = (s'.declare name).locals := by
  rw [locals_declare, locals_declare, h]

theorem Scopes.introduce_of_locals (h : s.locals = s'.locals) (name : String) :
    (s.introduce name).locals = (s'.introduce name).locals := by
  rw [locals_introduce, locals_introduce, h]

theorem Scopes.enter_of_locals (h : s.locals = s'.locals) : s.enter.locals = s'.enter.locals :=
  congrArg ([] :: ·) h

theorem Scopes.inside_of_locals (h : s.locals = s'.locals) (parameters : List Token) :
    (s.inside parameters).locals = (s'.inside parameters).locals := by
  rw [locals_inside, locals_inside, h]

theorem Scopes.after_of_locals (h : s.locals = s'.locals) (t : Stmt) :
    (s.after t).locals = (s'.after t).locals := by
  unfold after
  split
  · exact introduce_of_locals h _
  · exact h

end

mutual

theorem Expr.bind_of_locals {s s' : Scopes} (h : s.locals = s'.locals) :
    ∀ e : Expr, e.bind s = e.bind s'
  | .literal _ => rfl
  | .grouping inner => by rw [Expr.bind, Expr.bind, inner.bind_of_locals h]
  | .unary _ operand => by rw [Expr.bind, Expr.bind, operand.bind_of_locals h]
  | .binary left _ right => by
    rw [Expr.bind, Expr.bind, left.bind_of_locals h, right.bind_of_locals h]
  | .logical left _ right => by
    rw [Expr.bind, Expr.bind, left.bind_of_locals h, right.bind_of_locals h]
  | .variable name _ => by rw [Expr.bind, Expr.bind, Scopes.distance_of_locals h]
  | .assign name value _ => by
    rw [Expr.bind, Expr.bind, value.bind_of_locals h, Scopes.distance_of_locals h]
  | .call callee _ arguments => by
    rw [Expr.bind, Expr.bind, callee.bind_of_locals h, Expr.bindList_of_locals h arguments]

theorem Expr.bindList_of_locals {s s' : Scopes} (h : s.locals = s'.locals) :
    ∀ es : List Expr, Expr.bindList s es = Expr.bindList s' es
  | [] => rfl
  | e :: rest => by
    rw [Expr.bindList, Expr.bindList, e.bind_of_locals h, Expr.bindList_of_locals h rest]

end

mutual

theorem Stmt.bind_of_locals {s s' : Scopes} (h : s.locals = s'.locals) :
    ∀ t : Stmt, t.bind s = t.bind s'
  | .expression value => by rw [Stmt.bind, Stmt.bind, value.bind_of_locals h]
  | .print value => by rw [Stmt.bind, Stmt.bind, value.bind_of_locals h]
  | .variable name initializer => by
    have same : Expr.bind (s.declare name.lexeme) = Expr.bind (s'.declare name.lexeme) :=
      funext (Expr.bind_of_locals (Scopes.declare_of_locals h name.lexeme))
    rw [Stmt.bind, Stmt.bind, same]
  | .block body => by
    rw [Stmt.bind, Stmt.bind, Stmt.bindList_of_locals (Scopes.enter_of_locals h) body]
  | .branch condition consequent none => by
    rw [Stmt.bind, Stmt.bind, condition.bind_of_locals h, consequent.bind_of_locals h]
  | .branch condition consequent (some alternative) => by
    rw [Stmt.bind, Stmt.bind, condition.bind_of_locals h, consequent.bind_of_locals h,
      alternative.bind_of_locals h]
  | .loop condition body => by
    rw [Stmt.bind, Stmt.bind, condition.bind_of_locals h, body.bind_of_locals h]
  | .function name parameters body => by
    have inner := Scopes.inside_of_locals (Scopes.introduce_of_locals h name.lexeme) parameters
    rw [Stmt.bind, Stmt.bind, Stmt.bindList_of_locals inner body]
  | .return _ value => by
    have same : Expr.bind s = Expr.bind s' := funext (Expr.bind_of_locals h)
    rw [Stmt.bind, Stmt.bind, same]

/-- Scopes that differ in their globals alone bind a program alike. -/
theorem Stmt.bindList_of_locals {s s' : Scopes} (h : s.locals = s'.locals) :
    ∀ ts : List Stmt, Stmt.bindList s ts = Stmt.bindList s' ts
  | [] => rfl
  | first :: rest => by
    rw [Stmt.bindList, Stmt.bindList, first.bind_of_locals h,
      Stmt.bindList_of_locals (Scopes.after_of_locals h first) rest]

end

-- ---------------------------------------------------------------------------
-- Knowing more globals
-- ---------------------------------------------------------------------------

/-- The second scopes know all globals that the first ones know, and wait for no others. -/
structure Scopes.Within (s s' : Scopes) : Prop where
  locals : s.locals = s'.locals
  known : ∀ name, s.globals.declares name → s'.globals.declares name
  awaited : ∀ name, s'.globals.awaits name → s.globals.awaits name

theorem Scope.awaits_mark (scope : Scope) (name key : String) (ready : Bool) :
    (scope.mark name ready).awaits key =
      if key = name then !ready else scope.awaits key := by
  unfold awaits
  rw [lookup_mark]
  split
  · cases ready <;> rfl
  · rfl

theorem Scopes.awaits_topLevel (names : List String) (name : String) :
    (Scopes.topLevel names).globals.awaits name = false := by
  unfold topLevel Scope.awaits
  induction names with
  | nil => rfl
  | cons first rest ih =>
    rw [List.map_cons, List.lookup_cons]
    cases name == first with
    | true => rfl
    | false => exact ih

theorem Scopes.awaits_afterAll {s : Scopes} (hl : s.locals = [])
    (hs : ∀ name, s.globals.awaits name = false) (ts : List Stmt) (name : String) :
    (s.afterAll ts).globals.awaits name = false := by
  induction ts generalizing s with
  | nil => exact hs name
  | cons first rest ih =>
    refine ih (locals_after_eq_nil hl first) fun key => ?_
    unfold after
    split
    · next token _ =>
      have declared : (s.introduce token.lexeme).globals =
          (s.declare token.lexeme).globals.mark token.lexeme true := by
        rw [introduce, define, mark, locals_declare_eq_nil hl]
      rw [declared, Scope.awaits_mark]
      split
      · rfl
      · next other =>
        unfold declare
        split
        · exact hs key
        · rw [mark, hl, Scope.awaits_mark, if_neg other]
          exact hs key
    · exact hs key

namespace Scopes.Within

variable {s s' : Scopes}

theorem mark (h : s.Within s') (name : String) (ready : Bool) :
    (s.mark name ready).Within (s'.mark name ready) := by
  have hl := h.locals
  unfold Scopes.mark
  cases hs : s.locals with
  | cons scope outer =>
    rw [← hl, hs]
    exact ⟨rfl, h.known, h.awaited⟩
  | nil =>
    rw [← hl, hs]
    refine ⟨rfl, fun key hk => ?_, fun key hk => ?_⟩
    · rw [Scope.declares_mark, Bool.or_eq_true] at hk ⊢
      exact hk.imp id (h.known key)
    · rw [Scope.awaits_mark] at hk ⊢
      split
      · next same => rwa [if_pos same] at hk
      · next other => exact h.awaited key (by rwa [if_neg other] at hk)

theorem markFirst (h : s.Within s') (hl : s.locals = []) {name : String}
    (hn : s'.globals.declares name) : (s.mark name false).Within s' := by
  unfold Scopes.mark
  rw [hl]
  refine ⟨hl.symm.trans h.locals, fun key hk => ?_, fun key hk => ?_⟩
  · rw [Scope.declares_mark, Bool.or_eq_true, decide_eq_true_iff] at hk
    rcases hk with rfl | hk
    · exact hn
    · exact h.known key hk
  · rw [Scope.awaits_mark]
    split
    · rfl
    · exact h.awaited key hk

theorem declare (h : s.Within s') (name : String) : (s.declare name).Within (s'.declare name) := by
  unfold Scopes.declare
  rw [← h.locals]
  by_cases top : s.locals = []
  · by_cases hn : s.globals.declares name
    · rw [if_pos (by simp [top, hn]), if_pos (by simp [top, h.known name hn])]
      exact h
    · rw [if_neg (by simp [hn])]
      split
      · next known => exact h.markFirst top (by simpa [top] using known)
      · exact h.mark name false
  · rw [if_neg (by simp [top]), if_neg (by simp [top])]
    exact h.mark name false

theorem introduce (h : s.Within s') (name : String) :
    (s.introduce name).Within (s'.introduce name) :=
  (h.declare name).mark name true

theorem enter (h : s.Within s') : s.enter.Within s'.enter :=
  ⟨enter_of_locals h.locals, h.known, h.awaited⟩

theorem after (h : s.Within s') (t : Stmt) : (s.after t).Within (s'.after t) := by
  unfold Scopes.after
  split
  · exact h.introduce _
  · exact h

theorem inside (h : s.Within s') (parameters : List Token) :
    (s.inside parameters).Within (s'.inside parameters) := by
  have all {s s' : Scopes} (h : s.Within s') :
      (parameters.foldl (fun s p => s.introduce p.lexeme) s).Within
        (parameters.foldl (fun s p => s.introduce p.lexeme) s') := by
    induction parameters generalizing s s' with
    | nil => exact h
    | cons p rest ih => exact ih (h.introduce p.lexeme)
  exact all h.enter

/-! Each kind of error in the first scopes and in the second ones. -/

theorem redeclared (h : s.Within s') (name : Token) : s'.redeclared name = s.redeclared name := by
  unfold Scopes.redeclared Scopes.innermost
  rw [← h.locals]
  cases s.locals <;> rfl

theorem parameterErrors (h : s.Within s') (parameters : List Token) :
    s'.parameterErrors parameters = s.parameterErrors parameters := by
  induction parameters generalizing s s' with
  | nil => rfl
  | cons p rest ih =>
    rw [Scopes.parameterErrors, Scopes.parameterErrors, h.redeclared, ih (h.introduce p.lexeme)]

theorem readErrors (h : s.Within s') {name : Token} (hn : s.readErrors name = []) :
    s'.readErrors name = [] := by
  have quiet := readErrors_eq_nil hn
  unfold Scopes.readErrors
  rw [if_neg]
  intro waits
  refine Bool.false_ne_true (quiet.symm.trans ?_)
  unfold innermost at waits ⊢
  rw [← h.locals] at waits
  cases hl : s.locals with
  | nil =>
    rw [hl] at waits
    exact h.awaited _ waits
  | cons scope outer =>
    rw [hl] at waits
    exact waits

end Scopes.Within

mutual

theorem Expr.bindingErrors_within {s s' : Scopes} (h : s.Within s') :
    ∀ e : Expr, e.bindingErrors s = [] → e.bindingErrors s' = []
  | .literal _, _ => rfl
  | .grouping inner, he => inner.bindingErrors_within h he
  | .unary _ operand, he => operand.bindingErrors_within h he
  | .binary left _ right, he => by
    obtain ⟨hl, hr⟩ := List.append_eq_nil_iff.1 he
    exact List.append_eq_nil_iff.2
      ⟨left.bindingErrors_within h hl, right.bindingErrors_within h hr⟩
  | .logical left _ right, he => by
    obtain ⟨hl, hr⟩ := List.append_eq_nil_iff.1 he
    exact List.append_eq_nil_iff.2
      ⟨left.bindingErrors_within h hl, right.bindingErrors_within h hr⟩
  | .variable _ _, he => h.readErrors he
  | .assign _ value _, he => value.bindingErrors_within h he
  | .call callee _ arguments, he => by
    obtain ⟨hc, ha⟩ := List.append_eq_nil_iff.1 he
    exact List.append_eq_nil_iff.2
      ⟨callee.bindingErrors_within h hc, Expr.listBindingErrors_within h arguments ha⟩

theorem Expr.listBindingErrors_within {s s' : Scopes} (h : s.Within s') :
    ∀ es : List Expr, Expr.listBindingErrors s es = [] → Expr.listBindingErrors s' es = []
  | [], _ => rfl
  | e :: rest, he => by
    obtain ⟨hf, hr⟩ := List.append_eq_nil_iff.1 he
    exact List.append_eq_nil_iff.2
      ⟨e.bindingErrors_within h hf, Expr.listBindingErrors_within h rest hr⟩

end

theorem Scopes.Within.optionalErrors {s s' : Scopes} (h : s.Within s') {value : Option Expr}
    (hv : s.optionalErrors value = []) : s'.optionalErrors value = [] := by
  cases value with
  | none => rfl
  | some e => exact e.bindingErrors_within h hv

mutual

theorem Stmt.bindingErrors_within {s s' : Scopes} (h : s.Within s') {inFunction : Bool} :
    ∀ t : Stmt, t.bindingErrors s inFunction = [] → t.bindingErrors s' inFunction = []
  | .expression value, ht => value.bindingErrors_within h ht
  | .print value, ht => value.bindingErrors_within h ht
  | .variable name initializer, ht => by
    obtain ⟨hn, hi⟩ := List.append_eq_nil_iff.1 ht
    exact List.append_eq_nil_iff.2
      ⟨(h.redeclared name).trans hn, (h.declare name.lexeme).optionalErrors hi⟩
  | .block body, ht => Stmt.listBindingErrors_within h.enter body ht
  | .branch condition consequent none, ht => by
    obtain ⟨hc, ht⟩ := List.append_eq_nil_iff.1 ht
    exact List.append_eq_nil_iff.2
      ⟨condition.bindingErrors_within h hc, consequent.bindingErrors_within h ht⟩
  | .branch condition consequent (some alternative), ht => by
    obtain ⟨hb, ha⟩ := List.append_eq_nil_iff.1 ht
    obtain ⟨hc, ht⟩ := List.append_eq_nil_iff.1 hb
    exact List.append_eq_nil_iff.2 ⟨List.append_eq_nil_iff.2
      ⟨condition.bindingErrors_within h hc, consequent.bindingErrors_within h ht⟩,
      alternative.bindingErrors_within h ha⟩
  | .loop condition body, ht => by
    obtain ⟨hc, hb⟩ := List.append_eq_nil_iff.1 ht
    exact List.append_eq_nil_iff.2
      ⟨condition.bindingErrors_within h hc, body.bindingErrors_within h hb⟩
  | .function name parameters body, ht => by
    have inner := h.introduce name.lexeme
    obtain ⟨hd, hb⟩ := List.append_eq_nil_iff.1 ht
    obtain ⟨hn, hp⟩ := List.append_eq_nil_iff.1 hd
    exact List.append_eq_nil_iff.2 ⟨List.append_eq_nil_iff.2
      ⟨(h.redeclared name).trans hn, (inner.enter.parameterErrors parameters).trans hp⟩,
      Stmt.listBindingErrors_within (inner.inside parameters) body hb⟩
  | .return _ value, ht => by
    obtain ⟨hf, hv⟩ := List.append_eq_nil_iff.1 ht
    exact List.append_eq_nil_iff.2 ⟨hf, h.optionalErrors hv⟩

theorem Stmt.listBindingErrors_within {s s' : Scopes} (h : s.Within s') {inFunction : Bool} :
    ∀ ts : List Stmt, Stmt.listBindingErrors s inFunction ts = [] →
      Stmt.listBindingErrors s' inFunction ts = []
  | [], _ => rfl
  | first :: rest, ht => by
    obtain ⟨hf, hr⟩ := List.append_eq_nil_iff.1 ht
    exact List.append_eq_nil_iff.2
      ⟨first.bindingErrors_within h hf, Stmt.listBindingErrors_within (h.after first) rest hr⟩

end

end Lox
