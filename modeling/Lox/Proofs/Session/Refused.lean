import Lox.Proofs.Session.GlobalNames

/-!
# Refused sources leave no trace

A source with errors in its text or in its names is refused before anything of it runs. Sources that
are run one after another may be mixed with refused ones as one likes: without these, the others
fare and print as before and the session ends in the same state. What a source prints is what its
statements print one after another, and a failure takes nothing of that back.
-/

namespace Lox

-- ---------------------------------------------------------------------------
-- What is printed
-- ---------------------------------------------------------------------------

def Output.since (before after : Output) : String :=
  String.ofList (after.text.toList.drop before.text.toList.length)

@[simp]
theorem Output.since_write (o : Output) (text : String) : o.since (o.write text) = text := by
  simp [since]

@[simp]
theorem Output.since_self (o : Output) : o.since o = "" := by
  simp [since]

theorem Machine.Grows.output_eq {m m' : Machine} (h : m.Grows m') :
    m'.output = m.output.write (m.output.since m'.output) := by
  obtain ⟨text, same⟩ := h.output
  rw [same, Output.since_write]

/-- What the statements of a program print, each by itself, up to one that fails. -/
def Stmt.printed (n : Nat) : List Stmt → Machine → List String
  | [], _ => []
  | t :: rest, m =>
    match t.execute n m with
    | .done _ m' => m.output.since m'.output :: Stmt.printed n rest m'
    | .failed _ m' => [m.output.since m'.output]
    | .unfinished => []

section
variable {n : Nat} {ts : List Stmt} {m m' : Machine}

theorem Stmt.output_of_done (h : Stmt.runProgram n ts m = .done () m') :
    m'.output = m.output.write (String.join (Stmt.printed n ts m)) := by
  induction ts generalizing m with
  | nil =>
    cases h
    simp [Stmt.printed, Output.write_empty]
  | cons t rest ih =>
    obtain ⟨c, m₁, first, h⟩ := Run.bind_eq_done h
    have grows := (t.execute_grows n).done first
    rw [ih h, grows.output_eq, Output.write_write]
    simp [Stmt.printed, first]

theorem Stmt.printed_append (h : Stmt.runProgram n ts m = .done () m') (after : List Stmt) :
    Stmt.printed n (ts ++ after) m = Stmt.printed n ts m ++ Stmt.printed n after m' := by
  induction ts generalizing m with
  | nil =>
    cases h
    rfl
  | cons t rest ih =>
    obtain ⟨c, m₁, first, h⟩ := Run.bind_eq_done h
    simp [Stmt.printed, first, ih h]

theorem Stmt.output_of_failed {k : Nat} {t : Stmt} {m₁ : Machine} {e : RuntimeError}
    (at_k : ts[k]? = some t) (ran : Stmt.runProgram n (ts.take k) m = .done () m₁)
    (failed : t.execute n m₁ = .failed e m') :
    m'.output = m.output.write (String.join (Stmt.printed n (ts.take (k + 1)) m)) := by
  have grows : m₁.Grows m' := by
    have grows := t.execute_grows n m₁
    rwa [failed] at grows
  have last : Stmt.printed n [t] m₁ = [m₁.output.since m'.output] := by
    simp [Stmt.printed, failed]
  rw [List.take_add_one, at_k, Option.toList_some, Stmt.printed_append ran, last,
    String.join_append, ← Output.write_write, ← Stmt.output_of_done ran]
  simpa using grows.output_eq

end

-- ---------------------------------------------------------------------------
-- Runs one after another
-- ---------------------------------------------------------------------------

def Verdict.refused : Verdict → Bool
  | .failure (.syntactic _) | .failure (.binding _) => true
  | _ => false

/-- A run with all that can be seen of it: how it fared, and the session before it and after it. -/
structure Ran where
  source : String
  before : Session
  verdict : Verdict
  after : Session

def Ran.printed (r : Ran) : String :=
  r.before.machine.output.since r.after.machine.output

namespace Session

def ran (n : Nat) (source : String) (s : Session) : Ran :=
  { source := source, before := s, verdict := (s.run n source).1, after := (s.run n source).2 }

/-- Runs sources one after another. Gives the runs and the session at the end. -/
def runAll (n : Nat) : List String → Session → List Ran × Session
  | [], s => ([], s)
  | source :: rest, s =>
    let r := s.ran n source
    let (others, last) := runAll n rest r.after
    (r :: others, last)

theorem mem_runAll {n : Nat} {sources : List String} {s : Session} {r : Ran}
    (h : r ∈ (s.runAll n sources).1) :
    ∃ (before : Session) (source : String), r = before.ran n source := by
  induction sources generalizing s with
  | nil => cases h
  | cons source rest ih =>
    rcases List.mem_cons.mp h with rfl | h
    · exact ⟨s, source, rfl⟩
    · exact ih h

theorem after_of_refused {n : Nat} {source : String} {s : Session}
    (h : (s.ran n source).verdict.refused) : (s.ran n source).after = s := by
  cases verdict : (s.run n source).1 with
  | success | unfinished => simp [ran, verdict, Verdict.refused] at h
  | failure reason =>
    refine Session.run_of_refused (Prod.ext verdict rfl) ?_
    rintro e rfl
    simp [ran, verdict, Verdict.refused] at h

theorem runAll_kept (n : Nat) (sources : List String) (s : Session) :
    let kept := (s.runAll n sources).1.filter (!·.verdict.refused)
    s.runAll n (kept.map Ran.source) = (kept, (s.runAll n sources).2) := by
  induction sources generalizing s with
  | nil => rfl
  | cons source rest ih =>
    have others := ih (s.ran n source).after
    by_cases refused : (s.ran n source).verdict.refused
    · rw [after_of_refused refused] at others
      simpa [runAll, refused, after_of_refused refused] using others
    · have same : (s.ran n source).source = source := rfl
      simp [runAll, refused, same, others]

end Session

/-- Whatever sources are run in a session one after another: with those left out that are refused,
the others fare and print as before, from the same sessions to the same sessions, and the session
ends in the same state. A refused source prints nothing and leaves the session as it was. A source
that fails prints what its statements print up to and with the one that fails. -/
theorem refused_sources_leave_no_trace (n : Nat) (sources : List String) (s : Session) :
    let runs := (s.runAll n sources).1
    let kept := runs.filter (!·.verdict.refused)
    s.runAll n (kept.map Ran.source) = (kept, (s.runAll n sources).2) ∧
    ∀ r ∈ runs,
      r.after.machine.output = r.before.machine.output.write r.printed ∧
      (r.verdict.refused → r.printed = "" ∧ r.after = r.before) ∧
      ∀ e, r.verdict = .failure (.runtime e) →
        ∃ statements k t m, compile r.before.machine.globalNames r.source = .ok statements ∧
          statements[k]? = some t ∧
          Stmt.runProgram n (statements.take k) r.before.machine = .done () m ∧
          t.execute n m = .failed e r.after.machine ∧
          r.printed = String.join (Stmt.printed n (statements.take (k + 1)) r.before.machine) := by
  refine ⟨s.runAll_kept n sources, fun r hr => ?_⟩
  obtain ⟨before, source, rfl⟩ := Session.mem_runAll hr
  refine ⟨(before.run_grows n source).output_eq, fun refused => ?_, fun e failed => ?_⟩
  · have same := Session.after_of_refused refused
    refine ⟨?_, same⟩
    rw [Ran.printed, same]
    exact Output.since_self _
  · obtain ⟨statements, compiled, failed⟩ := Session.run_eq_runtime (Prod.ext failed rfl)
    obtain ⟨k, t, m, at_k, ran, failed⟩ := Stmt.runProgram_eq_failed failed
    refine ⟨statements, k, t, m, compiled, at_k, ran, failed, ?_⟩
    have output : (before.ran n source).after.machine.output = _ :=
      Stmt.output_of_failed at_k ran failed
    rw [Ran.printed, output]
    exact Output.since_write _ _

/-- A source that prints and then fails, one that is refused, and one that succeeds. -/
example :
    let runs := ((Session.start (.buffer "") fun _ => 0).runAll 9
      ["print nil; -nil;", "return;", "print clock;"]).1
    runs.map (fun r => (r.verdict.refused, r.printed)) =
      [(false, "nil\n"), (true, ""), (false, "<native fn>\n")] := by
  decide +kernel

end Lox
