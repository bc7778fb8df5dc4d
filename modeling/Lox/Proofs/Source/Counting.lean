import Lox.Source.Scan

/-!
# Counting lines

The line is counted up while a piece is cut, wherever a line end is gone over. What is added up for
a piece is the number of line ends in its text (`line_cut`): strings and comments over lines count
them one by one, and of the other pieces only a blank can hold one.
-/

namespace Lox.Source

/-- The number of lines a piece goes on for after the one it starts on. -/
def Piece.newlines (p : Piece) : Nat :=
  p.text.count '\n'

theorem lineBehind_eq (line : Nat) (c : Char) : lineBehind line c = line + [c].count '\n' := by
  by_cases h : c = '\n' <;> simp [lineBehind, h]

-- ---------------------------------------------------------------------------
-- Pieces over several lines
-- ---------------------------------------------------------------------------

theorem Stretch.line_behind {s : Stretch} {line : Nat} {front : List Char}
    (h : s.line = line + front.count '\n' + s.text.count '\n') :
    (s.behind front).line = line + (s.behind front).text.count '\n' := by
  rw [behind, List.count_append, ← Nat.add_assoc]
  exact h

theorem line_closeComment (depth line : Nat) (text : List Char) :
    (closeComment depth line text).line =
      line + (closeComment depth line text).text.count '\n' := by
  fun_induction closeComment depth line text with
  | case1 | case3 => rfl
  | case2 depth line rest ih | case4 line rest depth ih => exact Stretch.line_behind ih
  | case5 depth line c rest _ _ _ ih =>
    rw [lineBehind_eq] at ih ⊢
    exact Stretch.line_behind ih

theorem line_closeString (line : Nat) (text : List Char) :
    (closeString line text).line = line + (closeString line text).text.count '\n' := by
  fun_induction closeString line text with
  | case1 | case2 => rfl
  | case3 line c rest _ ih =>
    rw [lineBehind_eq] at ih ⊢
    exact Stretch.line_behind ih

theorem line_stringPiece (line : Nat) (rest : List Char) :
    (stringPiece line rest).line = line + (stringPiece line rest).piece.newlines := by
  have counted := line_closeString line rest
  unfold stringPiece
  generalize closeString line rest = read at counted ⊢
  obtain ⟨text, last, _ | after⟩ := read <;>
    simpa [Piece.newlines, Piece.text] using counted

-- ---------------------------------------------------------------------------
-- Pieces on one line
-- ---------------------------------------------------------------------------

theorem count_takeWhile {p : Char → Bool} (hp : p '\n' = false) (text : List Char) :
    (text.takeWhile p).count '\n' = 0 := by
  refine List.count_eq_zero_of_not_mem fun h => ?_
  have taken : p '\n' = true := List.all_eq_true.1 List.all_takeWhile _ h
  exact Bool.false_ne_true (hp.symm.trans taken)

theorem newlines_numberPiece {first : Char} (hf : first ≠ '\n') (rest : List Char) :
    (numberPiece first rest).1.newlines = 0 := by
  have digits := count_takeWhile (p := Char.isDigit) rfl
  unfold numberPiece
  split
  · next d after _ =>
    split
    · next digit =>
      have hd : d ≠ '\n' := by
        rintro rfl
        cases digit
      simp [Piece.newlines, Piece.text, digits, hf, hd]
    · simp [Piece.newlines, Piece.text, digits, hf]
  · simp [Piece.newlines, Piece.text, digits, hf]

theorem newlines_wordPiece {first : Char} (hf : first ≠ '\n') (rest : List Char) :
    (wordPiece first rest).1.newlines = 0 := by
  have word := count_takeWhile (p := continuesWord) rfl rest
  simp [wordPiece, Piece.newlines, Piece.text, word, hf]

theorem newlines_operatorPiece {c : Char} (hc : c ≠ '\n') (short long : Kind) (rest : List Char) :
    (operatorPiece c short long rest).1.newlines = 0 := by
  unfold operatorPiece
  split <;> simp [Piece.newlines, Piece.text, hc]

/-- A line comment ends before the line end, so nothing is counted. -/
theorem line_slashPiece (line : Nat) (rest : List Char) :
    (slashPiece line rest).line = line + (slashPiece line rest).piece.newlines := by
  unfold slashPiece
  split
  · next rest =>
    have comment := count_takeWhile (p := (· ≠ '\n')) rfl rest
    simpa [Cut.onLine, Piece.newlines, Piece.text] using comment
  · next rest =>
    have counted := line_closeComment 0 line rest
    generalize closeComment 0 line rest = read at counted ⊢
    obtain ⟨body, last, _ | after⟩ := read <;>
      simpa [Piece.newlines, Piece.text] using counted
  · rfl

theorem line_cut (line : Nat) (c : Char) (rest : List Char) :
    (cut line c rest).line = line + (cut line c rest).piece.newlines := by
  have onLine (p : Piece × List Char) (h : p.1.newlines = 0) :
      (Cut.onLine line p).line = line + (Cut.onLine line p).piece.newlines := by
    rw [Cut.onLine, h, Nat.add_zero]
  by_cases newline : c = '\n'
  · subst newline
    rfl
  unfold cut
  split
  · exact onLine _ (by simp [Piece.newlines, Piece.text, newline])
  · exact onLine _ (newlines_operatorPiece newline ..)
  · split
    · exact lineBehind_eq line c
    split
    · exact line_slashPiece line rest
    split
    · exact line_stringPiece line rest
    split
    · exact onLine _ (newlines_numberPiece newline rest)
    split
    · exact onLine _ (newlines_wordPiece newline rest)
    · exact onLine _ (by simp [Piece.newlines, Piece.text, newline])

end Lox.Source
