import Lox.Proofs.Grammar.Placement
import Lox.Proofs.Machine.Soundness
import Lox.Session.Basic

/-!
# Reachable sessions

The sessions that start anew and run sources, whatever becomes of each run. Their machines are sound
and rest in the global frame; the programs that reach them are accepted.
-/

namespace Lox

theorem accepted_of_parse {tokens : List Token} {reading : Grammar.Reading} {globals : List String}
    (hp : Grammar.parse tokens = .ok reading)
    (hb : (Bound.ofStatements globals reading.statements).errors = []) :
    Stmt.ListAccepted (Scopes.topLevel globals) false
      (Bound.ofStatements globals reading.statements).statements :=
  Stmt.accepted_bindList _ false reading.statements hb (Grammar.placed_parse hp)

theorem compile_eq_ok {globals : List String} {source : String} {statements : List Stmt}
    (h : compile globals source = .ok statements) :
    ∃ reading, Grammar.parse (Scan.ofSource source).tokens = .ok reading ∧
      (Scan.ofSource source).errors = [] ∧ reading.findings = [] ∧
      (Bound.ofStatements globals reading.statements).errors = [] ∧
      (Bound.ofStatements globals reading.statements).statements = statements := by
  unfold compile at h
  dsimp only at h
  split at h
  · cases h
  · next reading hr =>
    split at h
    · next clean =>
      split at h
      · next bound =>
        cases h
        simp only [Grammar.Reading.errors, List.isEmpty_iff, List.append_eq_nil_iff,
          List.map_eq_nil_iff] at clean bound
        exact ⟨reading, hr, clean.1, clean.2, bound, rfl⟩
      · cases h
    · cases h

namespace Session

inductive Reachable : Session → Prop
  | start (output : Output) (reading : Nat → Float) : Reachable (start output reading)
  | run {s : Session} (steps : Nat) (source : String) :
    Reachable s → Reachable (s.run steps source).2
  | takeOutput {s : Session} : Reachable s → Reachable s.takeOutput.2
  | write {s : Session} (text : String) : Reachable s → Reachable (s.write text)

end Session

/-- A machine between two programs. -/
structure Machine.Resting (m : Machine) : Prop where
  sound : m.Sound
  current : m.current = Heap.globalFrame

theorem Machine.Resting.fits {m : Machine} (hm : m.Resting) : m.heap.Fits [] m.current :=
  hm.current ▸ .globals

theorem Heap.own?_initial (frame : Nat) (name : String) : Heap.initial.own? frame name = none := by
  cases frame with
  | zero => rfl
  | succ frame => exact Heap.own?_of_size_le (Nat.le_add_left 1 frame) name

theorem Machine.resting_initial (output : Output) (reading : Nat → Float) :
    (Machine.initial output reading).Resting where
  current := rfl
  sound := by
    refine ⟨fun frame name v hv => ?_, Nat.one_pos⟩
    unfold Machine.initial at hv
    rw [Heap.own?_define] at hv
    split at hv
    · cases hv
      rintro function frame ⟨⟩
    · rw [Heap.own?_initial] at hv
      cases hv

theorem Machine.Resting.runProgram {m : Machine} (hm : m.Resting) (n : Nat) {ts : List Stmt}
    {s : Scopes} (hs : s.locals = []) (ha : Stmt.ListAccepted s false ts) :
    (Stmt.runProgram n ts m).Ends (fun _ => Machine.Resting) Machine.Resting := by
  have fits : m.heap.Fits s.locals m.current := hs ▸ hm.fits
  have settled : Settled s.locals := by simp [Settled, hs]
  have sound := Stmt.runProgram_sound n ts hm.sound fits settled ha
  have grows := Stmt.runProgram_grows n ts m
  revert sound grows
  cases Stmt.runProgram n ts m with
  | done _ m' => exact fun sound grows => ⟨sound, grows.current.trans hm.current⟩
  | failed _ m' => exact fun sound grows => ⟨sound, grows.current.trans hm.current⟩
  | unfinished => exact fun _ _ => trivial

theorem Session.resting_execute {s : Session} (hs : s.machine.Resting) (steps : Nat)
    {program : List Stmt} {scopes : Scopes} (hl : scopes.locals = [])
    (ha : Stmt.ListAccepted scopes false program) :
    (s.execute steps program).2.machine.Resting := by
  have ends := hs.runProgram steps hl ha
  unfold Session.execute
  revert ends
  cases Stmt.runProgram steps program s.machine with
  | done _ m => exact id
  | failed _ m => exact id
  | unfinished => exact fun _ => hs

theorem Session.resting_run {s : Session} (hs : s.machine.Resting) (steps : Nat) (source : String) :
    (s.run steps source).2.machine.Resting := by
  unfold Session.run
  split
  · next statements hc =>
    obtain ⟨reading, hp, -, -, hb, rfl⟩ := compile_eq_ok hc
    exact Session.resting_execute hs steps rfl (accepted_of_parse hp hb)
  · exact hs

theorem Session.Reachable.resting {s : Session} (hs : s.Reachable) : s.machine.Resting := by
  induction hs with
  | start output reading => exact Machine.resting_initial output reading
  | run steps source _ ih => exact Session.resting_run ih steps source
  | takeOutput _ ih => exact ⟨⟨ih.sound.heap, ih.sound.global⟩, ih.current⟩
  | write text _ ih => exact ⟨⟨ih.sound.heap, ih.sound.global⟩, ih.current⟩

end Lox
