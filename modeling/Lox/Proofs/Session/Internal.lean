import Lox.Proofs.Source.Lexemes
import Lox.Session.Basic

/-!
# No failure but the program's own

Whatever the text of a source and whatever the session, a run fails only by an error that belongs to
the source: one of its text, of its names, or of its execution.
-/

namespace Lox

theorem compile_eq_refused {globals : List String} {source : String} {reason : Failure}
    (h : compile globals source = .error reason) :
    ∃ reading, Grammar.parse (Scan.ofSource source).tokens = .ok reading ∧
      (reason = .syntactic
        ((Scan.ofSource source).errors.map .lexical ++ reading.errors.map .grammar) ∨
        reason = .binding (Bound.ofStatements globals reading.statements).errors) := by
  obtain ⟨before, last, tokens, proper⟩ := Source.tokens_ofSource source
  obtain ⟨reading, read⟩ := Grammar.parse_eq_ok (Source.wellEnded_of_proper proper last)
  rw [← tokens] at read
  refine ⟨reading, read, ?_⟩
  unfold compile at h
  dsimp only at h
  rw [read] at h
  dsimp only at h
  split at h
  · split at h
    · cases h
    · cases h
      exact .inr rfl
  · cases h
    exact .inl rfl

theorem compile_eq_error {globals : List String} {source : String} {reason : Failure}
    (h : compile globals source = .error reason) :
    (∃ errors, reason = .syntactic errors) ∨ ∃ errors, reason = .binding errors := by
  obtain ⟨reading, -, syntactic | binding⟩ := compile_eq_refused h
  · exact .inl ⟨_, syntactic⟩
  · exact .inr ⟨_, binding⟩

theorem Session.execute_ne_internal (steps : Nat) (statements : List Stmt) (s : Session)
    (message : String) : (s.execute steps statements).1 ≠ .failure (.internal message) := by
  unfold Session.execute
  cases Stmt.runProgram steps statements s.machine <;> exact fun h => nomatch h

/-- The tokens of any source are those of its lexemes and one end token behind them, with a value in
every number, which is a numeral, and in every string; they are read without a fault; and so a run
in any session never fails internally. -/
theorem run_never_fails_internally (source : String) :
    (∃ before last, (Scan.ofSource source).tokens = before ++ [Token.atEnd last] ∧
      ∀ t ∈ before, Source.Proper t) ∧
    (∃ reading, Grammar.parse (Scan.ofSource source).tokens = .ok reading) ∧
    ∀ (s : Session) (steps : Nat) (message : String),
      (s.run steps source).1 ≠ .failure (.internal message) := by
  obtain ⟨before, last, tokens, proper⟩ := Source.tokens_ofSource source
  refine ⟨⟨before, last, tokens, proper⟩, ?_, fun s steps message => ?_⟩
  · rw [tokens]
    exact Grammar.parse_eq_ok (Source.wellEnded_of_proper proper last)
  · unfold Session.run
    split
    · exact Session.execute_ne_internal steps _ s message
    · next reason compiled =>
      rintro ⟨⟩
      obtain ⟨_, refused⟩ | ⟨_, refused⟩ := compile_eq_error compiled
      · cases refused
      · cases refused

end Lox
