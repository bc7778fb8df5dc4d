import Lox.Proofs.Source.Lines
import Lox.Proofs.Source.Munch

/-!
# Exact line numbers

Every token and every lexical error has the line that counting the line ends of the source gives,
from its start to where the piece ends, and for a stray character to where it stands. What is never
closed reaches to the end of the source. So the lines never go back.
-/

namespace Lox.Source

-- ---------------------------------------------------------------------------
-- Lines by counting
-- ---------------------------------------------------------------------------

/-- The line on which a text ends; lines count from one. -/
def lineAfter (text : List Char) : Nat :=
  1 + text.count '\n'

def preceded (before : List Char) : List Piece → List (List Char × Piece)
  | [] => []
  | p :: rest => (before, p) :: preceded (before ++ p.text) rest

def tokenBehind? : List Char × Piece → Option Token
  | (before, .lexeme kind text) => some
    { kind := kind
      lexeme := String.ofList text
      literal := literal? kind text
      line := lineAfter (before ++ text) }
  | _ => none

/-- The error that a piece of a text is: a stray character has the line it stands on, and what is
never closed has the last line of the text. -/
def errorBehind? (whole : List Char) : List Char × Piece → Option LexicalError
  | (before, .stray c) => some { line := lineAfter before, cause := .strayCharacter c }
  | (_, .openString _) => some { line := lineAfter whole, cause := .openString }
  | (_, .openComment _) => some { line := lineAfter whole, cause := .openComment }
  | _ => none

theorem lineAfter_append (before : List Char) (p : Piece) :
    lineAfter (before ++ p.text) = lineAfter before + p.newlines := by
  rw [lineAfter, List.count_append, ← Nat.add_assoc]
  rfl

theorem mem_preceded {before : List Char} {ps : List Piece} {place : List Char × Piece}
    (h : place ∈ preceded before ps) :
    ∃ after, before ++ ps.flatMap Piece.text = place.1 ++ place.2.text ++ after := by
  induction ps generalizing before with
  | nil => cases h
  | cons p rest ih =>
    rw [List.flatMap_cons, ← List.append_assoc]
    rcases List.mem_cons.1 h with rfl | h
    · exact ⟨rest.flatMap Piece.text, rfl⟩
    · exact ih h

theorem tokensFrom_lineAfter (before : List Char) (ps : List Piece) :
    tokensFrom (lineAfter before) ps = (preceded before ps).filterMap tokenBehind? ++
      [Token.atEnd (lineAfter (before ++ ps.flatMap Piece.text))] := by
  induction ps generalizing before with
  | nil => simp [tokensFrom, preceded]
  | cons p rest ih =>
    rw [List.flatMap_cons, ← List.append_assoc, tokensFrom_cons, ← lineAfter_append, preceded,
      List.filterMap_cons, ih]
    cases p <;> rfl

theorem Stray.ne_newline {c : Char} (h : Stray c) : c ≠ '\n' := by
  rintro rfl
  exact h.unmarked (by decide)

theorem errorsFrom_lineAfter {text : List Char} {ps : List Piece} (h : Cuts text ps)
    (before : List Char) : errorsFrom (lineAfter before) ps =
      (preceded before ps).filterMap (errorBehind? (before ++ text)) := by
  induction h generalizing before with
  | nil => rfl
  | @cons p after ps hp _ ih =>
    have later := ih (before ++ p.text)
    rw [List.append_assoc, lineAfter_append] at later
    rw [preceded, List.filterMap_cons, ← later]
    cases p with
    | stray c =>
      have same_line : (Piece.stray c).newlines = 0 := by
        simp [Piece.newlines, Piece.text, hp.ne_newline]
      simp [errorsFrom, Piece.fault?, errorBehind?, same_line]
    | openString body =>
      obtain ⟨-, rfl⟩ := hp
      rw [List.append_nil]
      simp only [errorsFrom, Piece.fault?, errorBehind?, lineAfter_append]
    | openComment body =>
      obtain ⟨-, rfl⟩ := hp
      rw [List.append_nil]
      simp only [errorsFrom, Piece.fault?, errorBehind?, lineAfter_append]
    | _ => rfl

-- ---------------------------------------------------------------------------
-- Lines never go back
-- ---------------------------------------------------------------------------

theorem pairwise_tokensFrom (line : Nat) (ps : List Piece) :
    (tokensFrom line ps).Pairwise fun t u => t.line ≤ u.line := by
  induction ps generalizing line with
  | nil => exact List.pairwise_singleton ..
  | cons p rest ih =>
    rw [tokensFrom_cons]
    split
    · next t made =>
      refine List.pairwise_cons.2 ⟨fun u hu => ?_, ih _⟩
      rw [Piece.line_token? made]
      exact (line_tokensFrom hu).1
    · exact ih _

theorem pairwise_errorsFrom (line : Nat) (ps : List Piece) :
    (errorsFrom line ps).Pairwise fun e f => e.line ≤ f.line := by
  induction ps generalizing line with
  | nil => exact .nil
  | cons p rest ih =>
    simp only [errorsFrom]
    split
    · exact List.pairwise_cons.2 ⟨fun f hf => (line_errorsFrom hf).1, ih _⟩
    · exact ih _

/-- The tokens and the errors of a source are those of its pieces, in order. A token has the line on
which its lexeme ends, a stray character the line on which it stands; the end token and what is
never closed have the last line of the source. -/
theorem scan_lines_are_exact (source : String) :
    ∃ ps : List Piece, Cuts source.toList ps ∧
      (∀ place ∈ preceded [] ps, ∃ after,
        source.toList = place.1 ++ place.2.text ++ after) ∧
      (Scan.ofSource source).tokens =
        (preceded [] ps).filterMap tokenBehind? ++ [Token.atEnd (lineAfter source.toList)] ∧
      (Scan.ofSource source).errors =
        (preceded [] ps).filterMap (errorBehind? source.toList) ∧
      (Scan.ofSource source).tokens.Pairwise (fun t u => t.line ≤ u.line) ∧
      (Scan.ofSource source).errors.Pairwise (fun e f => e.line ≤ f.line) := by
  have whole : (pieces source.toList).flatMap Piece.text = source.toList := flatMap_text_pieces _
  rw [Scan.ofSource_eq]
  refine ⟨pieces source.toList, cuts_pieces _, fun place mem => ?_, ?_, ?_,
    pairwise_tokensFrom .., pairwise_errorsFrom ..⟩
  · obtain ⟨after, split⟩ := mem_preceded mem
    rw [List.nil_append, whole] at split
    exact ⟨after, split⟩
  · have tokens := tokensFrom_lineAfter [] (pieces source.toList)
    rwa [List.nil_append, whole] at tokens
  · exact errorsFrom_lineAfter (cuts_pieces _) []

/-- A string has the line on which it ends. -/
example : (Scan.ofSource "\"a\nb\"").tokens.map Token.line = [2, 2] := by decide +kernel

end Lox.Source
