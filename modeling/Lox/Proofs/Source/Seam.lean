import Lox.Proofs.Source.Lexemes
import Lox.Proofs.Source.Separation

/-!
# Texts joined by a line end

No piece that is closed reaches over a line end that it does not hold. So the pieces of two texts
with a line end between them are the pieces of the one, the line end, and the pieces of the other;
and the tokens and the errors are those of the one, without its end token, and those of the other on
later lines.
-/

namespace Lox.Source

-- ---------------------------------------------------------------------------
-- Pieces before a line end
-- ---------------------------------------------------------------------------

/-- Neither a string nor a comment that nothing closes. -/
def Piece.Closed (p : Piece) : Prop :=
  p.fault? ≠ some .openString ∧ p.fault? ≠ some .openComment

theorem Piece.Munched.before_newline {p : Piece} {after : List Char} (hp : p.Munched after)
    (closed : p.Closed) (text : List Char) : p.Munched (after ++ '\n' :: text) := by
  cases p with
  | lineComment body =>
    refine ⟨hp.1, fun c hc => ?_⟩
    cases after with
    | nil =>
      cases hc
      rfl
    | cons d after => exact hp.2 c hc
  | openString => exact absurd rfl closed.1
  | openComment => exact absurd rfl closed.2
  | _ =>
    have seen : beforeBlank (after ++ '\n' :: text) <+: after ++ [] :=
      beforeBlank_append after List.nil_prefix
    rw [List.append_nil] at seen
    exact hp.of_beforeBlank trivial seen

theorem Cuts.append_newline {text after : List Char} {ps qs : List Piece} (h : Cuts text ps)
    (closed : ∀ p ∈ ps, p.Closed) (h' : Cuts after qs) :
    Cuts (text ++ '\n' :: after) (ps ++ .blank '\n' :: qs) := by
  induction h with
  | nil => exact .cons (show (Piece.blank '\n').Munched after by simp [Piece.Munched]) h'
  | cons hp _ ih =>
    obtain ⟨first, others⟩ := List.forall_mem_cons.1 closed
    rw [List.append_assoc]
    exact .cons (hp.before_newline first after) (ih others)

theorem pieces_append {text : List Char} (closed : ∀ p ∈ pieces text, p.Closed)
    (after : List Char) :
    pieces (text ++ '\n' :: after) = pieces text ++ .blank '\n' :: pieces after :=
  ((cuts_pieces text).append_newline closed (cuts_pieces after)).eq_pieces.symm

-- ---------------------------------------------------------------------------
-- Tokens and errors
-- ---------------------------------------------------------------------------

theorem toList_joined (a b : String) : (a ++ "\n" ++ b).toList = a.toList ++ '\n' :: b.toList := by
  simp

section
variable {a : String}

theorem closed_of_causes (h : ∀ e ∈ (Scan.ofSource a).errors,
    e.cause ≠ .openString ∧ e.cause ≠ .openComment) : ∀ p ∈ pieces a.toList, p.Closed := by
  rw [Scan.ofSource_eq] at h
  have causes := map_errorsFrom 1 (pieces a.toList)
  have closed (p : Piece) (hp : p ∈ pieces a.toList) (cause : LexicalCause)
      (hc : p.fault? = some cause) : cause ≠ .openString ∧ cause ≠ .openComment := by
    have found := List.mem_filterMap.2 ⟨p, hp, hc⟩
    rw [← causes] at found
    obtain ⟨e, he, rfl⟩ := List.mem_map.1 found
    exact h e he
  exact fun p hp => ⟨fun hc => (closed p hp _ hc).1 rfl, fun hc => (closed p hp _ hc).2 rfl⟩

theorem tokens_append (closed : ∀ p ∈ pieces a.toList, p.Closed) (b : String) :
    (Scan.ofSource (a ++ "\n" ++ b)).tokens = (Scan.ofSource a).tokens.dropLast ++
      (Scan.ofSource b).tokens.map (Token.relabel (· + (a.toList.count '\n' + 1))) := by
  simp only [Scan.ofSource_eq, Scan.ofPieces]
  rw [toList_joined, pieces_append closed, tokensFrom_append, lineEnds_pieces, ← tokensFrom_add]
  rfl

theorem errors_append (closed : ∀ p ∈ pieces a.toList, p.Closed) (b : String) :
    (Scan.ofSource (a ++ "\n" ++ b)).errors = (Scan.ofSource a).errors ++
      (Scan.ofSource b).errors.map (LexicalError.relabel (· + (a.toList.count '\n' + 1))) := by
  simp only [Scan.ofSource_eq, Scan.ofPieces]
  rw [toList_joined, pieces_append closed, errorsFrom_append, lineEnds_pieces, ← errorsFrom_add]
  rfl

theorem tokens_joined (ha : (Scan.ofSource a).errors = []) (b : String) :
    ∃ before last lines, (∀ t ∈ before, t.kind ≠ .eof) ∧
      (Scan.ofSource a).tokens = before ++ [Token.atEnd last] ∧
      (Scan.ofSource (a ++ "\n" ++ b)).tokens =
        before ++ (Scan.ofSource b).tokens.map (Token.relabel (· + lines)) := by
  have closed : ∀ p ∈ pieces a.toList, p.Closed := closed_of_causes (by simp [ha])
  obtain ⟨before, last, alone, proper⟩ := tokens_ofSource a
  refine ⟨before, last, a.toList.count '\n' + 1, fun t ht => (proper t ht).kind, alone, ?_⟩
  rw [tokens_append closed, alone, List.dropLast_concat]

theorem errors_joined {b : String} (ha : (Scan.ofSource a).errors = [])
    (hb : (Scan.ofSource b).errors = []) : (Scan.ofSource (a ++ "\n" ++ b)).errors = [] := by
  have closed : ∀ p ∈ pieces a.toList, p.Closed := closed_of_causes (by simp [ha])
  rw [errors_append closed, ha, hb]
  rfl

/-- A source in which every string and comment is closed, a line end, and any source behind it: what
is read is what the first one gives without its end token, and then what the second one gives, as
many lines later as the text in front of it goes on for. -/
theorem scan_splits_at_newlines (h : ∀ e ∈ (Scan.ofSource a).errors,
    e.cause ≠ .openString ∧ e.cause ≠ .openComment) (b : String) :
    (Scan.ofSource (a ++ "\n" ++ b)).tokens = (Scan.ofSource a).tokens.dropLast ++
        (Scan.ofSource b).tokens.map (Token.relabel (· + (a.toList.count '\n' + 1))) ∧
      (Scan.ofSource (a ++ "\n" ++ b)).errors = (Scan.ofSource a).errors ++
        (Scan.ofSource b).errors.map (LexicalError.relabel (· + (a.toList.count '\n' + 1))) :=
  ⟨tokens_append (closed_of_causes h) b, errors_append (closed_of_causes h) b⟩

theorem scan_splits_at_newlines_stray :
    (∀ e ∈ (Scan.ofSource "@\n// \"").errors, e.cause ≠ .openString ∧ e.cause ≠ .openComment) ∧
      (Scan.ofSource ("@\n// \"" ++ "\n" ++ "= /*")).tokens.map (fun t => (t.lexeme, t.line)) =
        [("=", 3), ("", 3)] ∧
      (Scan.ofSource ("@\n// \"" ++ "\n" ++ "= /*")).errors =
        [⟨1, .strayCharacter '@'⟩, ⟨3, .openComment⟩] := by
  have stray : (Piece.stray '@').Munched "\n// \"".toList := ⟨by decide, by decide, by decide⟩
  have newline : (Piece.blank '\n').Munched "// \"".toList := .inr (.inr (.inr rfl))
  have comment : (Piece.lineComment [' ', '"']).Munched [] := ⟨by decide, stops_nil⟩
  have cuts : Cuts "@\n// \"".toList [.stray '@', .blank '\n', .lineComment [' ', '"']] :=
    .cons stray (.cons newline (.cons comment .nil))
  have first : Scan.ofSource "@\n// \"" =
      { tokens := [Token.atEnd 2], errors := [⟨1, .strayCharacter '@'⟩] } := by
    rw [Scan.ofSource_eq, ← cuts.eq_pieces]
    rfl
  have closed : ∀ e ∈ (Scan.ofSource "@\n// \"").errors,
      e.cause ≠ .openString ∧ e.cause ≠ .openComment := by simp [first]
  obtain ⟨tokens, errors⟩ := scan_splits_at_newlines closed "= /*"
  refine ⟨closed, ?_, ?_⟩
  · rw [tokens, first]
    decide +kernel
  · rw [errors, first]
    decide +kernel

end

end Lox.Source
