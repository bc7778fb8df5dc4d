import Lox.Proofs.Session.Joining

/-!
# Which global names a source leaves

The names that a source declares at top level are known before it runs, and they are what its run
adds to the global names: all of them if it succeeds, those of the statements before the failing one
if it ends in an error, and none if it is refused. What runs inside those statements, however deep,
adds and removes none.
-/

namespace Lox

-- ---------------------------------------------------------------------------
-- Parts that declare no global name
-- ---------------------------------------------------------------------------

/-- The same global names, in whatever order. -/
def Machine.SameGlobals (m m' : Machine) : Prop :=
  ∀ name, name ∈ m'.globalNames ↔ name ∈ m.globalNames

def Part.Leaves (n : Nat) (m : Machine) (P : Machine → Prop) : Part → Prop
  | .expression e => (e.evaluate n m).Ends (fun _ => P) P
  | .arguments es => (Expr.evaluateList n es m).Ends (fun _ => P) P
  | .call c values => (c.call n values m).Ends (fun _ => P) P
  | .statement t => (t.execute n m).Ends (fun _ => P) P
  | .statements ts => (Stmt.executeList n ts m).Ends (fun _ => P) P
  | .program ts => (Stmt.runProgram n ts m).Ends (fun _ => P) P

/-- All but programs and the declarations that stand at their top level, which run in the global
frame. -/
def Part.Nested (m : Machine) : Part → Prop
  | .statement t => t.declared? = none ∨ m.current ≠ Heap.globalFrame
  | .program _ => False
  | _ => True

/-- Statements that follow each other in a block or a body do not run in the global frame. -/
def Part.Framed (m : Machine) : Part → Prop
  | .statements _ => m.current ≠ Heap.globalFrame
  | _ => True

theorem Enters.framed {n k : Nat} {p q : Part} {m m' : Machine} (h : Enters n p m k q m')
    (hm : m.Sound) (hp : p.Framed m) : q.Framed m' := by
  cases h with
  | body | block => exact Nat.ne_of_gt hm.global
  | rest ht =>
    have same := ((Stmt.execute_grows _ _).done ht).current
    exact fun top => hp (same.symm.trans top)
  | _ => trivial

theorem Reaches.framed {n k : Nat} {p q : Part} {m m' : Machine} (h : Reaches n p m k q m')
    (hm : m.Sound) (hp : p.Fits m) (hf : p.Framed m) : q.Framed m' := by
  induction h with
  | here => exact hf
  | step he _ ih =>
    obtain ⟨hm', hq⟩ := he.fits hm hp
    exact ih hm' hq (he.framed hm hf)

theorem Machine.Grows.sameGlobals {m m' : Machine} (hg : m.Grows m')
    (hw : m'.heap.GlobalsWithin (· ∈ m.globalNames)) : m.SameGlobals m' := by
  intro name
  refine ⟨fun bound => hw name (Heap.isSome_own?_iff.2 bound), fun bound => ?_⟩
  exact Heap.isSome_own?_iff.1 (hg.heap.bound _ _ (Heap.isSome_own?_iff.2 bound))

theorem Run.Grows.sameGlobals {α : Type} {x : Run α} (hx : x.Grows) {m : Machine}
    (hw : (x m).GlobalsWithin (· ∈ m.globalNames)) :
    (x m).Ends (fun _ => m.SameGlobals) m.SameGlobals := by
  have grows := hx m
  unfold Outcome.GlobalsWithin at hw
  revert hw grows
  cases x m with
  | done a m' => exact fun within grown => grown.sameGlobals within
  | failed e m' => exact fun within grown => grown.sameGlobals within
  | unfinished => exact fun _ _ => trivial

theorem Part.Nested.leaves {p : Part} {m : Machine} (h : p.Nested m) (hm : m.Sound) (hp : p.Fits m)
    (hf : p.Framed m) (n : Nat) : p.Leaves n m m.SameGlobals := by
  have own : m.heap.GlobalsWithin (· ∈ m.globalNames) := fun _ => Heap.isSome_own?_iff.1
  have atTop {scopes : List Scope} (fits : m.heap.Fits scopes m.current) (top : scopes = []) :
      m.current = Heap.globalFrame :=
    (top ▸ fits).eq_globalFrame
  cases p with
  | expression e =>
    obtain ⟨s, fits, accepted⟩ := hp
    exact (e.evaluate_grows n).sameGlobals (e.evaluate_within n ⟨hm, fits, own⟩ accepted)
  | arguments es =>
    obtain ⟨s, fits, accepted⟩ := hp
    exact (Expr.evaluateList_grows n es).sameGlobals
      (Expr.evaluateList_within n es ⟨hm, fits, own⟩ accepted)
  | call c values =>
    obtain ⟨sound, sounds, count⟩ := hp
    exact (c.call_grows n values).sameGlobals (c.call_within n values hm sound sounds count own)
  | statement t =>
    obtain ⟨s, inFunction, fits, settled, accepted⟩ := hp
    refine (t.execute_grows n).sameGlobals
      (t.execute_within n ⟨hm, fits, own⟩ settled accepted fun top name declares => ?_)
    rcases h with none | inner
    · rw [none] at declares
      cases declares
    · exact absurd (atTop fits top) inner
  | statements ts =>
    obtain ⟨s, inFunction, fits, settled, accepted⟩ := hp
    exact (Stmt.executeList_grows n ts).sameGlobals
      (Stmt.executeList_within n ts ⟨hm, fits, own⟩ settled accepted fun top => hf (atTop fits top))
  | program ts => exact h.elim

-- ---------------------------------------------------------------------------
-- Programs
-- ---------------------------------------------------------------------------

theorem Stmt.runProgram_eq_failed {n : Nat} {ts : List Stmt} {m m' : Machine} {e : RuntimeError}
    (h : Stmt.runProgram n ts m = .failed e m') :
    ∃ k t m₁, ts[k]? = some t ∧ Stmt.runProgram n (ts.take k) m = .done () m₁ ∧
      t.execute n m₁ = .failed e m' := by
  induction ts generalizing m with
  | nil => cases h
  | cons first rest ih =>
    rcases Run.bind_eq_failed h with failed | ⟨c, m₁, done, h⟩
    · exact ⟨0, first, m, rfl, rfl, failed⟩
    · obtain ⟨k, t, m₂, at_k, ran, failed⟩ := ih h
      refine ⟨k + 1, t, m₂, at_k, ?_, failed⟩
      rw [List.take_succ_cons, Stmt.runProgram, Run.bind_apply, done]
      exact ran

theorem Stmt.execute_failed_sameGlobals {n : Nat} {t : Stmt} {s : Scopes} {m m' : Machine}
    {e : RuntimeError} (hm : m.Resting) (hl : s.locals = []) (ha : t.Accepted s false)
    (h : t.execute n m = .failed e m') : m.SameGlobals m' := by
  have fits : m.heap.Fits s.locals m.current := hl ▸ hm.fits
  by_cases hd : t.declared? = none
  · have nested : (Part.statement t).Nested m := .inl hd
    have leaves := nested.leaves hm.sound
      ⟨s, false, fits, by simp [Settled, hl], ha⟩ trivial n
    simp only [Part.Leaves, h] at leaves
    exact leaves
  · cases n with
    | zero => cases h
    | succ n =>
      cases t with
      | «variable» name initializer =>
        cases initializer with
        | none => cases h
        | some value =>
          rcases Run.bind_eq_failed h with failed | ⟨v, m₁, -, h⟩
          · have inner : m.heap.Fits (s.declare name.lexeme).locals m.current := by
              rw [Scopes.locals_declare]
              exact fits.declare _
            have leaves := Part.Nested.leaves (p := .expression value) trivial hm.sound
              ⟨s.declare name.lexeme, inner, ha.2 value rfl⟩ trivial n
            simp only [Part.Leaves, failed] at leaves
            exact leaves
          · cases h
      | function name parameters body => cases h
      | _ => exact absurd rfl hd

theorem Machine.Resting.mem_globalNames {m m' : Machine} (hm : m.Resting) {n : Nat} {ts : List Stmt}
    (ha : Stmt.ListAccepted (Scopes.topLevel m.globalNames) false ts)
    (h : Stmt.runProgram n ts m = .done () m') (name : String) :
    name ∈ m'.globalNames ↔
      ((Scopes.topLevel m.globalNames).afterAll ts).globals.declares name := by
  have known := (Scopes.globalsKnown_topLevel m).runProgram rfl hm.sound hm.current ha h
  have bound := (Scopes.globalsBound_topLevel m).runProgram rfl hm ha h
  exact ⟨fun hn => known name (Heap.isSome_own?_iff.2 hn), fun hn =>
    Heap.isSome_own?_iff.1 (bound name hn)⟩

theorem Machine.Resting.globalNames_of_failed {m m₁ m' : Machine} (hm : m.Resting) {n k : Nat}
    {ts : List Stmt} {t : Stmt} {e : RuntimeError}
    (ha : Stmt.ListAccepted (Scopes.topLevel m.globalNames) false ts) (at_k : ts[k]? = some t)
    (ran : Stmt.runProgram n (ts.take k) m = .done () m₁) (failed : t.execute n m₁ = .failed e m')
    (name : String) :
    name ∈ m'.globalNames ↔ name ∈ m.globalNames ∨ name ∈ Stmt.declaredNames (ts.take k) := by
  have split : ts = ts.take k ++ t :: ts.drop (k + 1) := by
    obtain ⟨small, rfl⟩ := List.getElem?_eq_some_iff.1 at_k
    rw [← List.drop_eq_getElem_cons small, List.take_append_drop]
  rw [split] at ha
  obtain ⟨before, after⟩ := Stmt.listAccepted_append ha
  have rests : m₁.Resting := (hm.runProgram n rfl before).of_done ran
  have same := Stmt.execute_failed_sameGlobals rests (Scopes.locals_afterAll_eq_nil rfl _)
    after.1 failed
  rw [same name, hm.mem_globalNames before ran, Scopes.declares_afterAll rfl,
    Scopes.declares_topLevel]

-- ---------------------------------------------------------------------------
-- Sessions
-- ---------------------------------------------------------------------------

theorem Session.run_eq_runtime {s s' : Session} {n : Nat} {source : String} {e : RuntimeError}
    (h : s.run n source = (.failure (.runtime e), s')) :
    ∃ statements, compile s.machine.globalNames source = .ok statements ∧
      Stmt.runProgram n statements s.machine = .failed e s'.machine := by
  obtain ⟨statements, compiled, -, executed⟩ :=
    Session.run_eq_ended h (fun c => nomatch c) (fun _ c => nomatch c) (fun _ c => nomatch c)
  refine ⟨statements, compiled, ?_⟩
  unfold Session.execute at executed
  split at executed
  · cases executed
  · next failed =>
    cases executed
    exact failed
  · cases executed

theorem Session.run_eq_failure {s s' : Session} {n : Nat} {source : String} {reason : Failure}
    (h : s.run n source = (.failure reason, s')) :
    (∃ e, reason = .runtime e) ∨ compile s.machine.globalNames source = .error reason ∧ s' = s := by
  unfold Session.run at h
  split at h
  · unfold Session.execute at h
    split at h
    · cases h
    · cases h
      exact .inl ⟨_, rfl⟩
    · cases h
  · next refused =>
    cases h
    exact .inr ⟨refused, rfl⟩

theorem Session.run_of_refused {s s' : Session} {n : Nat} {source : String} {reason : Failure}
    (h : s.run n source = (.failure reason, s')) (hr : ∀ e, reason ≠ .runtime e) : s' = s := by
  obtain ⟨e, runtime⟩ | ⟨-, same⟩ := Session.run_eq_failure h
  · exact absurd runtime (hr e)
  · exact same

/-- In a reachable session a run that succeeds leaves the global names it found and those that the
source declares at top level, which are the names in the table of globals at the end of binding; a
run that fails in a statement leaves those that the statements before it declare; a source that is
refused leaves none. Nothing nested in those statements changes the global names at any point. -/
theorem global_names_are_predicted {s : Session} (hs : s.Reachable) (n : Nat) (source : String) :
    (∀ s', s.run n source = (.success, s') →
      ∃ reading, Grammar.parse (Scan.ofSource source).tokens = .ok reading ∧ ∀ name,
        (name ∈ s'.machine.globalNames ↔
          name ∈ s.machine.globalNames ∨ name ∈ Stmt.declaredNames reading.statements) ∧
        (name ∈ s'.machine.globalNames ↔
          ((Scopes.topLevel s.machine.globalNames).afterAll
            reading.statements).globals.declares name)) ∧
    (∀ e s', s.run n source = (.failure (.runtime e), s') →
      ∃ reading statements k t m, Grammar.parse (Scan.ofSource source).tokens = .ok reading ∧
        (Bound.ofStatements s.machine.globalNames reading.statements).statements = statements ∧
        statements[k]? = some t ∧ Stmt.runProgram n (statements.take k) s.machine = .done () m ∧
        t.execute n m = .failed e s'.machine ∧ ∀ name, name ∈ s'.machine.globalNames ↔
          name ∈ s.machine.globalNames ∨ name ∈ Stmt.declaredNames (reading.statements.take k)) ∧
    (∀ reason s', s.run n source = (.failure reason, s') → (∀ e, reason ≠ .runtime e) →
      s'.machine.globalNames = s.machine.globalNames) ∧
    ∀ statements k p m, compile s.machine.globalNames source = .ok statements →
      Reaches n (.program statements) s.machine k p m → p.Nested m →
      p.Leaves k m m.SameGlobals := by
  have rests := hs.resting
  refine ⟨fun s' h => ?_, fun e s' h => ?_, fun reason s' h refused => ?_, ?_⟩
  · obtain ⟨statements, compiled, ran⟩ := Session.run_eq_success h
    obtain ⟨reading, parsed, -, -, bound, rfl⟩ := compile_eq_ok compiled
    refine ⟨reading, parsed, fun name => ?_⟩
    have names := rests.mem_globalNames (accepted_of_parse parsed bound) ran name
    rw [Bound.ofStatements, Scopes.afterAll_bindList] at names
    refine ⟨names.trans ?_, names⟩
    rw [Scopes.declares_afterAll rfl, Scopes.declares_topLevel]
  · obtain ⟨statements, compiled, failed⟩ := Session.run_eq_runtime h
    obtain ⟨reading, parsed, -, -, bound, rfl⟩ := compile_eq_ok compiled
    obtain ⟨k, t, m, at_k, ran, failed⟩ := Stmt.runProgram_eq_failed failed
    refine ⟨reading, _, k, t, m, parsed, rfl, at_k, ran, failed, fun name => ?_⟩
    rw [rests.globalNames_of_failed (accepted_of_parse parsed bound) at_k ran failed,
      Bound.ofStatements, Stmt.take_bindList, Stmt.declaredNames_bindList]
  · rw [Session.run_of_refused h refused]
  · intro statements k p m compiled reached nested
    obtain ⟨reading, parsed, -, -, bound, rfl⟩ := compile_eq_ok compiled
    have fits : (Part.program (Bound.ofStatements s.machine.globalNames
        reading.statements).statements).Fits s.machine :=
      ⟨Scopes.topLevel s.machine.globalNames, rests.fits, by simp [Settled, Scopes.topLevel],
        accepted_of_parse parsed bound⟩
    obtain ⟨sound, hp⟩ := reached.fits rests.sound fits
    exact nested.leaves sound hp (reached.framed rests.sound fits trivial) k

def declaresCallee : String :=
  "fun f(x) \x7b var y; \x7d"

def callsInBlock : String :=
  "\x7b var z; f(z); \x7d var a;"

theorem global_names_are_predicted_block :
    let s := ((Session.start (.buffer "") fun _ => 0).run 9 declaresCallee).2
    let r := s.run 9 callsInBlock
    s.machine.globalNames = ["clock", "f"] ∧ r.1 = .success ∧
      ∀ name, name ∈ r.2.machine.globalNames ↔ name ∈ ["clock", "f"] ∨ name ∈ ["a"] := by
  have found :
      ((Session.start (.buffer "") fun _ => 0).run 9 declaresCallee).2.machine.globalNames =
      ["clock", "f"] := by decide +kernel
  have ran :
      (((Session.start (.buffer "") fun _ => 0).run 9 declaresCallee).2.run 9 callsInBlock).1 =
      .success := by decide +kernel
  have declared : (Grammar.parse (Scan.ofSource callsInBlock).tokens).toOption.map
      (fun reading => Stmt.declaredNames reading.statements) = some ["a"] := by decide +kernel
  intro s r
  have reached : s.Reachable := .run 9 declaresCallee (.start _ _)
  obtain ⟨reading, parsed, names⟩ :=
    (global_names_are_predicted reached 9 callsInBlock).1 r.2 (Prod.ext ran rfl)
  rw [parsed] at declared
  have declared : Stmt.declaredNames reading.statements = ["a"] := Option.some.inj declared
  rw [found, declared] at names
  exact ⟨found, ran, fun name => (names name).1⟩

end Lox
