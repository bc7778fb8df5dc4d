import Lox.Proofs.Source.Counting
import Lox.Proofs.Syntax.Lines

/-!
# The lines of a source text

What is read from a text is what its pieces give, with lines that go on by the line ends in each of
them (`Scan.ofText_eq`). So the line of a token or of an error lies between the first line of the
text and its last one, and pieces that stand further down have the same tokens and errors on later
lines.
-/

namespace Lox

def LexicalError.relabel (g : Nat → Nat) (e : LexicalError) : LexicalError :=
  { e with line := g e.line }

def Scan.relabel (g : Nat → Nat) (s : Scan) : Scan :=
  { tokens := s.tokens.map (Token.relabel g), errors := s.errors.map (LexicalError.relabel g) }

namespace Source

def HasLine (source : String) (line : Nat) : Prop :=
  1 ≤ line ∧ line ≤ 1 + source.toList.count '\n'

/-- The pieces of a text, cut with lines from the given one on. -/
def piecesFrom (line : Nat) : List Char → List Piece
  | [] => []
  | c :: rest =>
    match _h : cut line c rest with
    | ⟨piece, last, after⟩ => piece :: piecesFrom last after
termination_by text => text.length
decreasing_by
  have := length_cut_lt line c rest
  rwa [_h] at this

def pieces (text : List Char) : List Piece :=
  piecesFrom 1 text

/-- The tokens among pieces that start on a given line, and the token at the end. -/
def tokensFrom (line : Nat) : List Piece → List Token
  | [] => [Token.atEnd line]
  | p :: rest =>
    let last := line + p.newlines
    match p.token? last with
    | some t => t :: tokensFrom last rest
    | none => tokensFrom last rest

def errorsFrom (line : Nat) : List Piece → List LexicalError
  | [] => []
  | p :: rest =>
    let last := line + p.newlines
    match p.fault? with
    | some cause => { line := last, cause := cause } :: errorsFrom last rest
    | none => errorsFrom last rest

def lineEnds (ps : List Piece) : Nat :=
  (ps.flatMap Piece.text).count '\n'

theorem lineEnds_cons (p : Piece) (rest : List Piece) :
    lineEnds (p :: rest) = p.newlines + lineEnds rest := by
  simp [lineEnds, Piece.newlines]

theorem tokensFrom_cons (line : Nat) (p : Piece) (rest : List Piece) :
    tokensFrom line (p :: rest) = match p.token? (line + p.newlines) with
      | some t => t :: tokensFrom (line + p.newlines) rest
      | none => tokensFrom (line + p.newlines) rest :=
  rfl

theorem errorsFrom_cons (line : Nat) (p : Piece) (rest : List Piece) :
    errorsFrom line (p :: rest) = match p.fault? with
      | some cause => ⟨line + p.newlines, cause⟩ :: errorsFrom (line + p.newlines) rest
      | none => errorsFrom (line + p.newlines) rest :=
  rfl

theorem piecesFrom_cons (line : Nat) (c : Char) (rest : List Char) :
    piecesFrom line (c :: rest) = (cut line c rest).piece ::
      piecesFrom (cut line c rest).line (cut line c rest).rest := by
  rw [piecesFrom]

@[simp]
theorem pieces_nil : pieces [] = [] := by
  rw [pieces, piecesFrom]

theorem flatMap_text_piecesFrom (line : Nat) (text : List Char) :
    (piecesFrom line text).flatMap Piece.text = text := by
  fun_induction piecesFrom line text with
  | case1 => rfl
  | case2 line c rest piece last after h ih =>
    have whole := cut_append line c rest
    rw [h] at whole
    rwa [List.flatMap_cons, ih]

theorem flatMap_text_pieces (text : List Char) : (pieces text).flatMap Piece.text = text :=
  flatMap_text_piecesFrom 1 text

end Source

-- ---------------------------------------------------------------------------
-- Tokens and errors together
-- ---------------------------------------------------------------------------

namespace Scan

open Source

def ofPieces (line : Nat) (ps : List Piece) : Scan :=
  { tokens := tokensFrom line ps, errors := errorsFrom line ps }

/-- The lines that are counted while a text is cut are those that its pieces go on for. -/
theorem ofText_eq (line : Nat) (text : List Char) :
    ofText line text = ofPieces line (piecesFrom line text) := by
  fun_induction ofText line text with
  | case1 line => rw [piecesFrom, ofPieces, tokensFrom, errorsFrom]
  | case2 line c rest piece last after h ih =>
    have counted := line_cut line c rest
    rw [h] at counted
    rw [ih, piecesFrom_cons, h, ofPieces, ofPieces, tokensFrom_cons, errorsFrom_cons, ← counted]
    rfl

theorem ofSource_eq (source : String) : ofSource source = ofPieces 1 (pieces source.toList) :=
  ofText_eq 1 source.toList

end Scan

namespace Source

-- ---------------------------------------------------------------------------
-- Lines of a text
-- ---------------------------------------------------------------------------

theorem Piece.line_token? {p : Piece} {line : Nat} {t : Token} (h : p.token? line = some t) :
    t.line = line := by
  cases p with
  | lexeme kind text =>
    cases h
    rfl
  | _ => cases h

theorem line_tokensFrom {ps : List Piece} {line : Nat} {t : Token} (ht : t ∈ tokensFrom line ps) :
    line ≤ t.line ∧ t.line ≤ line + lineEnds ps := by
  induction ps generalizing line with
  | nil =>
    obtain rfl := List.mem_singleton.mp ht
    simp [Token.atEnd]
  | cons p rest ih =>
    rw [lineEnds_cons]
    simp only [tokensFrom] at ht
    split at ht
    · next token made =>
      rcases List.mem_cons.mp ht with rfl | ht
      · rw [Piece.line_token? made]
        omega
      · have := ih ht
        omega
    · have := ih ht
      omega

theorem line_errorsFrom {ps : List Piece} {line : Nat} {e : LexicalError}
    (he : e ∈ errorsFrom line ps) : line ≤ e.line ∧ e.line ≤ line + lineEnds ps := by
  induction ps generalizing line with
  | nil => cases he
  | cons p rest ih =>
    rw [lineEnds_cons]
    simp only [errorsFrom] at he
    split at he
    · rcases List.mem_cons.mp he with rfl | he
      · simp only
        omega
      · have := ih he
        omega
    · have := ih he
      omega

theorem lineEnds_pieces (text : List Char) : lineEnds (pieces text) = text.count '\n' := by
  rw [lineEnds, flatMap_text_pieces]

theorem hasLine_token {source : String} {t : Token} (ht : t ∈ (Scan.ofSource source).tokens) :
    HasLine source t.line := by
  rw [Scan.ofSource_eq] at ht
  have within := line_tokensFrom ht
  rwa [lineEnds_pieces] at within

theorem hasLine_error {source : String} {e : LexicalError}
    (he : e ∈ (Scan.ofSource source).errors) : HasLine source e.line := by
  rw [Scan.ofSource_eq] at he
  have within := line_errorsFrom he
  rwa [lineEnds_pieces] at within

-- ---------------------------------------------------------------------------
-- Pieces further down
-- ---------------------------------------------------------------------------

theorem token?_add (p : Piece) (line lines : Nat) :
    p.token? (line + lines) = (p.token? line).map (Token.relabel (· + lines)) := by
  cases p <;> rfl

theorem tokensFrom_add (ps : List Piece) (line lines : Nat) :
    tokensFrom (line + lines) ps = (tokensFrom line ps).map (Token.relabel (· + lines)) := by
  induction ps generalizing line with
  | nil => rfl
  | cons p rest ih =>
    rw [tokensFrom_cons, tokensFrom_cons, Nat.add_right_comm, token?_add, ih]
    cases p.token? (line + p.newlines) <;> rfl

theorem errorsFrom_add (ps : List Piece) (line lines : Nat) :
    errorsFrom (line + lines) ps = (errorsFrom line ps).map (LexicalError.relabel (· + lines)) := by
  induction ps generalizing line with
  | nil => rfl
  | cons p rest ih =>
    rw [errorsFrom_cons, errorsFrom_cons, Nat.add_right_comm, ih]
    cases p.fault? <;> rfl

theorem tokensFrom_ne_nil (line : Nat) (ps : List Piece) : tokensFrom line ps ≠ [] := by
  induction ps generalizing line with
  | nil => exact List.cons_ne_nil _ _
  | cons p rest ih =>
    rw [tokensFrom_cons]
    split
    · exact List.cons_ne_nil _ _
    · exact ih _

theorem tokensFrom_append (ps qs : List Piece) (line : Nat) :
    tokensFrom line (ps ++ qs) =
      (tokensFrom line ps).dropLast ++ tokensFrom (line + lineEnds ps) qs := by
  induction ps generalizing line with
  | nil => rfl
  | cons p rest ih =>
    rw [List.cons_append, tokensFrom_cons, tokensFrom_cons, ih, lineEnds_cons, Nat.add_assoc]
    cases p.token? (line + p.newlines) with
    | none => rfl
    | some t => rw [List.dropLast_cons_of_ne_nil (tokensFrom_ne_nil _ _), List.cons_append]

theorem errorsFrom_append (ps qs : List Piece) (line : Nat) :
    errorsFrom line (ps ++ qs) = errorsFrom line ps ++ errorsFrom (line + lineEnds ps) qs := by
  induction ps generalizing line with
  | nil => rfl
  | cons p rest ih =>
    rw [List.cons_append, errorsFrom_cons, errorsFrom_cons, ih, lineEnds_cons, Nat.add_assoc]
    cases p.fault? <;> rfl

end Source

namespace Scan

open Source

theorem ofPieces_add (ps : List Piece) (line lines : Nat) :
    ofPieces (line + lines) ps = (ofPieces line ps).relabel (· + lines) := by
  rw [ofPieces, tokensFrom_add, errorsFrom_add]
  rfl

theorem ofPieces_cons_congr {ps qs : List Piece} (h : ∀ line, ofPieces line ps = ofPieces line qs)
    (line : Nat) (p : Piece) : ofPieces line (p :: ps) = ofPieces line (p :: qs) := by
  obtain ⟨tokens, errors⟩ := Scan.mk.inj (h (line + p.newlines))
  rw [ofPieces, ofPieces, tokensFrom_cons, tokensFrom_cons, errorsFrom_cons,
    errorsFrom_cons, tokens, errors]

end Scan

end Lox
