import Lox.Proofs.Grammar.Joining
import Lox.Proofs.Machine.Globals
import Lox.Proofs.Machine.Lines
import Lox.Proofs.Machine.Steps
import Lox.Proofs.Session.Internal
import Lox.Proofs.Session.Reads
import Lox.Proofs.Source.Seam

/-!
# One source instead of two

A source that runs with success and another that runs after it come to the same as the two in one
source with a line end between them: the same is printed, the second one's end is the end of both,
and the machines differ by the lines of tokens alone. No stage of a run sees the seam: no lexeme and
no statement reaches over it, and what the first source leaves bound is what its declarations make
known.
-/

namespace Lox

-- ---------------------------------------------------------------------------
-- Compiling
-- ---------------------------------------------------------------------------

theorem Scopes.afterAll_relabelList (s : Scopes) (g : Nat → Nat) (ts : List Stmt) :
    s.afterAll (Stmt.relabelList g ts) = s.afterAll ts := by
  induction ts generalizing s with
  | nil => rfl
  | cons first rest ih =>
    rw [Stmt.relabelList, afterAll, afterAll, after_relabel]
    exact ih (s.after first)

theorem Scopes.afterAll_bindList (s r : Scopes) (ts : List Stmt) :
    s.afterAll (Stmt.bindList r ts) = s.afterAll ts := by
  induction ts generalizing s r with
  | nil => rfl
  | cons first rest ih =>
    rw [Stmt.bindList, afterAll, afterAll, after_bind]
    exact ih (s.after first) (r.after first)

theorem Bound.ofStatements_joined {globals globals' : List String} {g : Nat → Nat}
    {before after : List Stmt} (ha : (Bound.ofStatements globals before).errors = [])
    (hb : (Bound.ofStatements globals' after).errors = [])
    (hw : (Scopes.topLevel globals').Within ((Scopes.topLevel globals).afterAll before)) :
    Bound.ofStatements globals (Stmt.relabelList id before ++ Stmt.relabelList g after) =
      { statements := Stmt.relabelList id (Bound.ofStatements globals before).statements ++
          Stmt.relabelList g (Bound.ofStatements globals' after).statements
        errors := [] } := by
  unfold Bound.ofStatements
  dsimp only
  congr 1
  · rw [Stmt.bindList_append, Stmt.bindList_relabelList, Stmt.bindList_relabelList,
      Scopes.afterAll_relabelList, Stmt.bindList_of_locals hw.locals]
  · have first : Stmt.listBindingErrors (Scopes.topLevel globals) false before = [] := ha
    have second := Stmt.listBindingErrors_within hw after hb
    rw [Stmt.listBindingErrors_append, Stmt.listBindingErrors_relabelList,
      Stmt.listBindingErrors_relabelList, Scopes.afterAll_relabelList, first, second]
    rfl

theorem compile_joined {globals globals' : List String} {a b : String} {before after : List Stmt}
    (ha : compile globals a = .ok before) (hb : compile globals' b = .ok after)
    (hw : (Scopes.topLevel globals').Within ((Scopes.topLevel globals).afterAll before)) :
    ∃ lines, compile globals (a ++ "\n" ++ b) =
      .ok (Stmt.relabelList id before ++ Stmt.relabelList (· + lines) after) := by
  obtain ⟨ra, readA, lexA, grammarA, boundA, rfl⟩ := compile_eq_ok ha
  obtain ⟨rb, readB, lexB, grammarB, boundB, rfl⟩ := compile_eq_ok hb
  obtain ⟨ta, lastA, lines, innerA, alone, joined⟩ := Source.tokens_joined lexA b
  obtain ⟨tb, lastB, tokensB, proper⟩ := Source.tokens_ofSource b
  have read := Grammar.parse_joined (g := (· + lines)) rfl rfl innerA
    (fun t ht => (proper t ht).kind)
    (alone ▸ readA) grammarA (tokensB ▸ readB) grammarB
  have bound := Bound.ofStatements_joined (g := (· + lines)) boundA boundB
    (by rwa [Bound.ofStatements, Scopes.afterAll_bindList] at hw)
  refine ⟨lines, ?_⟩
  unfold compile
  dsimp only
  rw [joined, tokensB, read, Source.errors_joined lexA lexB]
  dsimp only [Grammar.Reading.errors]
  rw [bound]
  rfl

-- ---------------------------------------------------------------------------
-- Running
-- ---------------------------------------------------------------------------

def nowhere : Nat → Nat :=
  fun _ => 0

theorem Stmt.runProgram_append (n : Nat) (before after : List Stmt) (m : Machine) :
    Stmt.runProgram n (before ++ after) m =
      (Stmt.runProgram n before >>= fun _ => Stmt.runProgram n after) m := by
  induction before generalizing m with
  | nil => rfl
  | cons first rest ih =>
    rw [List.cons_append, Stmt.runProgram, Stmt.runProgram, Run.bind_apply, Run.bind_apply,
      Run.bind_apply]
    cases first.execute n m with
    | done c m' => exact ih m'
    | failed e m' => rfl
    | unfinished => rfl

theorem Stmt.runProgram_nowhere {ts ts' : List Stmt}
    (h : Stmt.relabelList nowhere ts = Stmt.relabelList nowhere ts') (n : Nat) (m : Machine) :
    (Stmt.runProgram n ts m).relabel nowhere id = (Stmt.runProgram n ts' m).relabel nowhere id := by
  rw [← Stmt.runProgram_onLines nowhere n ts m, ← Stmt.runProgram_onLines nowhere n ts' m, h]

theorem Stmt.runProgram_joined {before after : List Stmt} {m m₁ : Machine} {n₁ n₂ n : Nat}
    (h : Stmt.runProgram n₁ before m = .done () m₁)
    (h' : Stmt.runProgram n₂ after m₁ ≠ .unfinished) (hn₁ : n₁ ≤ n) (hn₂ : n₂ ≤ n) (g : Nat → Nat) :
    (Stmt.runProgram n (Stmt.relabelList id before ++ Stmt.relabelList g after) m).relabel
    nowhere id =
      (Stmt.runProgram n₂ after m₁).relabel nowhere id := by
  have same : Stmt.relabelList nowhere (Stmt.relabelList id before ++ Stmt.relabelList g after) =
      Stmt.relabelList nowhere (before ++ after) := by
    rw [Stmt.relabelList_append, Stmt.relabelList_relabelList, Stmt.relabelList_relabelList,
      Stmt.relabelList_append]
    rfl
  have first := Stmt.runProgram_extended hn₁ before m (by rw [h]; exact fun c => nomatch c)
  have second := Stmt.runProgram_extended hn₂ after m₁ h'
  rw [Stmt.runProgram_nowhere same, Stmt.runProgram_append, Run.bind_apply, first, h]
  exact congrArg _ second

namespace Outcome

variable {o : Outcome Unit} {m : Machine}

theorem eq_done_of_relabel {g : Nat → Nat}
    (h : o.relabel g id = (Outcome.done () m).relabel g id) :
    ∃ m', o = .done () m' ∧ m'.relabel g = m.relabel g := by
  cases o with
  | done _ m' => exact ⟨m', rfl, (Outcome.done.inj h).2⟩
  | failed | unfinished => cases h

theorem eq_failed_of_relabel {g : Nat → Nat} {e : RuntimeError}
    (h : o.relabel g id = (Outcome.failed e m).relabel g id) :
    ∃ e' m', o = .failed e' m' ∧ e'.cause = e.cause ∧ m'.relabel g = m.relabel g := by
  cases o with
  | failed e' m' =>
    obtain ⟨he, hm⟩ := Outcome.failed.inj h
    have cause : (e'.relabel g).cause = (e.relabel g).cause := congrArg RuntimeError.cause he
    exact ⟨e', m', rfl, cause, hm⟩
  | done | unfinished => cases h

end Outcome

-- ---------------------------------------------------------------------------
-- Sessions
-- ---------------------------------------------------------------------------

/-- Two runs end alike: both with success, or both with a runtime error of the same cause, whatever
its line. -/
inductive Verdict.Alike : Verdict → Verdict → Prop
  | success : Alike .success .success
  | runtime {e e' : RuntimeError} :
    e.cause = e'.cause → Alike (.failure (.runtime e)) (.failure (.runtime e'))

theorem Session.run_eq_success {s s' : Session} {n : Nat} {source : String}
    (h : s.run n source = (.success, s')) :
    ∃ statements, compile s.machine.globalNames source = .ok statements ∧
      Stmt.runProgram n statements s.machine = .done () s'.machine := by
  unfold Session.run at h
  split at h
  · next statements compiled =>
    refine ⟨statements, compiled, ?_⟩
    unfold Session.execute at h
    split at h
    · next m ran =>
      cases h
      exact ran
    · cases h
    · cases h
  · cases h

theorem Session.run_eq_ended {s s' : Session} {n : Nat} {source : String} {v : Verdict}
    (h : s.run n source = (v, s')) (hf : v ≠ .unfinished)
    (hs : ∀ errors, v ≠ .failure (.syntactic errors))
    (hb : ∀ errors, v ≠ .failure (.binding errors)) :
    ∃ statements, compile s.machine.globalNames source = .ok statements ∧
      Stmt.runProgram n statements s.machine ≠ .unfinished ∧ s.execute n statements = (v, s') := by
  unfold Session.run at h
  split at h
  · next statements compiled =>
    refine ⟨statements, compiled, fun unfinished => ?_, h⟩
    unfold Session.execute at h
    rw [unfinished] at h
    exact hf (congrArg Prod.fst h).symm
  · next reason refused =>
    obtain ⟨rfl, rfl⟩ := Prod.mk.inj h
    obtain ⟨errors, rfl⟩ | ⟨errors, rfl⟩ := compile_eq_error refused
    · exact absurd rfl (hs errors)
    · exact absurd rfl (hb errors)

theorem Session.execute_grows (s : Session) (n : Nat) (ts : List Stmt) :
    s.machine.Grows (s.execute n ts).2.machine := by
  have grows := Stmt.runProgram_grows n ts s.machine
  unfold Session.execute
  revert grows
  cases Stmt.runProgram n ts s.machine with
  | done _ m => exact id
  | failed _ m => exact id
  | unfinished => exact fun _ => .refl _

theorem Session.run_grows (s : Session) (n : Nat) (source : String) :
    s.machine.Grows (s.run n source).2.machine := by
  unfold Session.run
  split
  · exact s.execute_grows n _
  · exact .refl _

theorem Session.execute_alike {s r r' : Session} {n k : Nat} {ts us : List Stmt} {v : Verdict}
    (h : (Stmt.runProgram n ts s.machine).relabel nowhere id =
      (Stmt.runProgram k us r.machine).relabel nowhere id)
    (ended : Stmt.runProgram k us r.machine ≠ .unfinished) (executed : r.execute k us = (v, r')) :
    ∃ v' s', s.execute n ts = (v', s') ∧ v'.Alike v ∧
      s'.machine.relabel nowhere = r'.machine.relabel nowhere := by
  unfold Session.execute at executed ⊢
  cases ran : Stmt.runProgram k us r.machine with
  | done _ m =>
    rw [ran] at h executed
    cases executed
    obtain ⟨m', done, same⟩ := Outcome.eq_done_of_relabel h
    exact ⟨.success, { s with machine := m' }, by rw [done], .success, same⟩
  | failed e m =>
    rw [ran] at h executed
    cases executed
    obtain ⟨e', m', failed, cause, same⟩ := Outcome.eq_failed_of_relabel h
    exact ⟨_, { s with machine := m' }, by rw [failed], .runtime cause, same⟩
  | unfinished => exact absurd ran ended

theorem Session.Reachable.within {s s' : Session} (hs : s.Reachable) {n : Nat} {source : String}
    {statements : List Stmt} (compiled : compile s.machine.globalNames source = .ok statements)
    (h : Stmt.runProgram n statements s.machine = .done () s'.machine) :
    (Scopes.topLevel s'.machine.globalNames).Within
      ((Scopes.topLevel s.machine.globalNames).afterAll statements) := by
  obtain ⟨reading, hp, -, -, hb, rfl⟩ := compile_eq_ok compiled
  have accepted := accepted_of_parse hp hb
  have rests := hs.resting
  have known := (Scopes.globalsKnown_topLevel s.machine).runProgram rfl rests.sound rests.current
    accepted h
  refine ⟨(Scopes.locals_afterAll_eq_nil rfl _).symm, fun name hn => ?_, fun name hn => ?_⟩
  · exact known name (Scopes.globalsBound_topLevel s'.machine name hn)
  · rw [Scopes.awaits_afterAll rfl (Scopes.awaits_topLevel _)] at hn
    cases hn

/-- A source that succeeds and a source behind it come to the same, in any reachable session, as the
two joined by a line end: to the output of the first and then that of the second, to the second
one's end, and to the same globals and the same machine but for the lines of tokens. -/
theorem joined_source_runs_alike {s s₁ s₂ : Session} (hs : s.Reachable) {a b : String} {n₁ n₂ : Nat}
    {v : Verdict} (ha : s.run n₁ a = (.success, s₁)) (hb : s₁.run n₂ b = (v, s₂))
    (finished : v ≠ .unfinished) (readable : ∀ errors, v ≠ .failure (.syntactic errors))
    (bound : ∀ errors, v ≠ .failure (.binding errors)) {n : Nat} (hn₁ : n₁ ≤ n) (hn₂ : n₂ ≤ n) :
    ∃ v' s', s.run n (a ++ "\n" ++ b) = (v', s') ∧ v'.Alike v ∧
      (∃ first second, s₁.machine.output = s.machine.output.write first ∧
        s₂.machine.output = s₁.machine.output.write second ∧
        s'.machine.output = s.machine.output.write (first ++ second)) ∧
      s'.machine.globalNames = s₂.machine.globalNames ∧
      (∀ name, (s'.machine.heap.own? Heap.globalFrame name).map (Value.relabel nowhere) =
        (s₂.machine.heap.own? Heap.globalFrame name).map (Value.relabel nowhere)) ∧
      s'.machine.relabel nowhere = s₂.machine.relabel nowhere := by
  obtain ⟨before, compiledA, ranA⟩ := Session.run_eq_success ha
  obtain ⟨after, compiledB, ended, executed⟩ := Session.run_eq_ended hb finished readable bound
  obtain ⟨lines, compiled⟩ := compile_joined compiledA compiledB (hs.within compiledA ranA)
  have joined := Stmt.runProgram_joined ranA ended hn₁ hn₂ (· + lines)
  obtain ⟨v', s', run, alike, same⟩ := Session.execute_alike joined ended executed
  obtain ⟨first, printedA⟩ := ((Stmt.runProgram_grows n₁ before).done ranA).output
  obtain ⟨second, printedB⟩ : ∃ text, s₂.machine.output = s₁.machine.output.write text := by
    have grows := s₁.execute_grows n₂ after
    rw [executed] at grows
    exact grows.output
  have output : (s'.machine.relabel nowhere).output = (s₂.machine.relabel nowhere).output :=
    congrArg Machine.output same
  have heap : s'.machine.heap.relabel nowhere = s₂.machine.heap.relabel nowhere :=
    congrArg Machine.heap same
  refine ⟨v', s', ?_, alike, ⟨first, second, printedA, printedB, ?_⟩, ?_, fun name => ?_, same⟩
  · unfold Session.run
    rw [compiled]
    exact run
  · refine output.trans (printedB.trans ?_)
    rw [printedA, Output.write_write]
  · rw [← Machine.globalNames_relabel nowhere s'.machine, same, Machine.globalNames_relabel]
  · rw [← Heap.own?_relabel, ← Heap.own?_relabel, heap]

def declaresEcho : String :=
  "fun f(x) \x7b return x; \x7d // f"

def callsEcho : String :=
  "print f(\"hi\"); f();"

/-- The call that fails is on the first line of its own source and on the second one of the joined
source. -/
theorem joined_source_runs_alike_echo :
    let s := Session.start (.buffer "") fun _ => 0
    let s₁ := (s.run 9 declaresEcho).2
    let s₂ := (s₁.run 9 callsEcho).2
    let v := Verdict.failure (.runtime { line := 1, cause := .arityMismatch 1 0 })
    (s.run 9 declaresEcho).1 = .success ∧ (s₁.run 9 callsEcho).1 = v ∧
    ∃ v' s', s.run 9 (declaresEcho ++ "\n" ++ callsEcho) = (v', s') ∧ v'.Alike v ∧
      s'.machine.output = .buffer "hi\n" ∧ s'.machine.globalNames = s₂.machine.globalNames := by
  have first : ((Session.start (.buffer "") fun _ => 0).run 9 declaresEcho).1 = .success := by
    decide +kernel
  have ran : let r := ((Session.start (.buffer "") fun _ => 0).run 9 declaresEcho).2.run 9 callsEcho
      (r.1, r.2.machine.output) =
        (.failure (.runtime { line := 1, cause := .arityMismatch 1 0 }), .buffer "hi\n") := by
      decide +kernel
  obtain ⟨second, printed⟩ := Prod.mk.inj ran
  intro s s₁ s₂ v
  obtain ⟨v', s', run, alike, ⟨a, b, ha, hb, output⟩, names, -⟩ :=
    joined_source_runs_alike (.start _ _) (Prod.ext first rfl) (Prod.ext second rfl)
      (by simp) (by simp) (by simp) (Nat.le_refl 9) (Nat.le_refl 9)
  refine ⟨first, second, v', s', run, alike, ?_, names⟩
  rw [← printed, hb, ha, output, Output.write_write]

end Lox
