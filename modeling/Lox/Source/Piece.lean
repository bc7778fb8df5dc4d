import Lox.Token.Kind

/-!
# Pieces of a source text

A source text is cut into consecutive pieces: blanks, comments, lexemes, characters that start
nothing, and at the very end possibly a string or a comment that is never closed. Each piece is as
long as its kind allows. Letters and digits are those of ASCII; every other character outside
strings and comments is a piece of its own that starts nothing.
-/

namespace Lox.Source

/-- A stretch of source text together with what it is. -/
inductive Piece where
  | blank (c : Char)
  /-- `//` and the text up to the end of the line. -/
  | lineComment (body : List Char)
  /-- `/*` and everything up to and with the `*/` that closes it. -/
  | blockComment (body : List Char)
  | lexeme (kind : Kind) (text : List Char)
  | stray (c : Char)
  /-- A quote that nothing closes, and the text after it. -/
  | openString (body : List Char)
  /-- `/*` that nothing closes, and the text after it. -/
  | openComment (body : List Char)
  deriving Repr, DecidableEq

def Piece.text : Piece → List Char
  | .blank c => [c]
  | .lineComment body => '/' :: '/' :: body
  | .blockComment body => '/' :: '*' :: body
  | .lexeme _ text => text
  | .stray c => [c]
  | .openString body => '"' :: body
  | .openComment body => '/' :: '*' :: body

def isBlank (c : Char) : Bool :=
  c == ' ' || c == '\r' || c == '\t' || c == '\n'

def startsWord (c : Char) : Bool :=
  c.isAlpha || c == '_'

def continuesWord (c : Char) : Bool :=
  c.isAlphanum || c == '_'

def lineBehind (line : Nat) (c : Char) : Nat :=
  if c = '\n' then line + 1 else line

/-- What is read of a string or of a comment: its text, the line on which it ends, and what follows
it if something closes it. -/
structure Stretch where
  text : List Char
  line : Nat
  rest : Option (List Char)

def Stretch.behind (front : List Char) (s : Stretch) : Stretch :=
  { s with text := front ++ s.text }

/-- Reads the text after `/*` to the `*/` that closes the comment, with `depth` further comments
open around it. Comments nest. -/
def closeComment : (depth line : Nat) → List Char → Stretch
  | _, line, [] => ⟨[], line, none⟩
  | depth, line, '/' :: '*' :: rest => (closeComment (depth + 1) line rest).behind ['/', '*']
  | 0, line, '*' :: '/' :: rest => ⟨['*', '/'], line, some rest⟩
  | depth + 1, line, '*' :: '/' :: rest => (closeComment depth line rest).behind ['*', '/']
  | depth, line, c :: rest => (closeComment depth (lineBehind line c) rest).behind [c]

/-- Reads the text after a quote to the next quote, over line ends too. -/
def closeString : (line : Nat) → List Char → Stretch
  | line, [] => ⟨[], line, none⟩
  | line, '"' :: rest => ⟨['"'], line, some rest⟩
  | line, c :: rest => (closeString (lineBehind line c) rest).behind [c]

/-- A piece at the front of a text, the line on which it ends, and the text after it. -/
structure Cut where
  piece : Piece
  line : Nat
  rest : List Char

def Cut.onLine (line : Nat) (p : Piece × List Char) : Cut :=
  ⟨p.1, line, p.2⟩

def slashPiece (line : Nat) : List Char → Cut
  | '/' :: rest =>
    .onLine line (.lineComment (rest.takeWhile (· ≠ '\n')), rest.dropWhile (· ≠ '\n'))
  | '*' :: rest =>
    match closeComment 0 line rest with
    | ⟨body, last, some after⟩ => ⟨.blockComment body, last, after⟩
    | ⟨body, last, none⟩ => ⟨.openComment body, last, []⟩
  | rest => .onLine line (.lexeme .slash ['/'], rest)

def stringPiece (line : Nat) (rest : List Char) : Cut :=
  match closeString line rest with
  | ⟨text, last, some after⟩ => ⟨.lexeme .string ('"' :: text), last, after⟩
  | ⟨body, last, none⟩ => ⟨.openString body, last, []⟩

/-- The piece after a first digit: more digits, and a fraction if a digit follows the point. -/
def numberPiece (first : Char) (rest : List Char) : Piece × List Char :=
  let whole := first :: rest.takeWhile Char.isDigit
  match rest.dropWhile Char.isDigit with
  | '.' :: d :: after =>
    if d.isDigit then
      (.lexeme .number (whole ++ '.' :: d :: after.takeWhile Char.isDigit),
        after.dropWhile Char.isDigit)
    else
      (.lexeme .number whole, '.' :: d :: after)
  | after => (.lexeme .number whole, after)

def wordPiece (first : Char) (rest : List Char) : Piece × List Char :=
  let word := first :: rest.takeWhile continuesWord
  (.lexeme (Kind.ofWord (String.ofList word)) word, rest.dropWhile continuesWord)

def operatorPiece (c : Char) (short long : Kind) : List Char → Piece × List Char
  | '=' :: rest => (.lexeme long [c, '='], rest)
  | rest => (.lexeme short [c], rest)

def single? : Char → Option Kind
  | '(' => some .leftParen
  | ')' => some .rightParen
  | '\x7b' => some .leftBrace
  | '\x7d' => some .rightBrace
  | ',' => some .comma
  | '.' => some .dot
  | '-' => some .minus
  | '+' => some .plus
  | ';' => some .semicolon
  | '*' => some .star
  | _ => none

def withEqual? : Char → Option (Kind × Kind)
  | '!' => some (.bang, .bangEqual)
  | '=' => some (.equal, .equalEqual)
  | '<' => some (.less, .lessEqual)
  | '>' => some (.greater, .greaterEqual)
  | _ => none

def cut (line : Nat) (c : Char) (rest : List Char) : Cut :=
  match single? c, withEqual? c with
  | some kind, _ => .onLine line (.lexeme kind [c], rest)
  | none, some (short, long) => .onLine line (operatorPiece c short long rest)
  | none, none =>
    if isBlank c then ⟨.blank c, lineBehind line c, rest⟩
    else if c = '/' then slashPiece line rest
    else if c = '"' then stringPiece line rest
    else if c.isDigit then .onLine line (numberPiece c rest)
    else if startsWord c then .onLine line (wordPiece c rest)
    else .onLine line (.stray c, rest)

/-! Cutting loses nothing: the text of the piece and the rest make up the text that was cut. -/

theorem closeComment_append (depth line : Nat) (text : List Char) :
    (closeComment depth line text).text ++ (closeComment depth line text).rest.getD [] = text := by
  fun_induction closeComment depth line text with
  | case1 | case3 => rfl
  | case2 | case4 | case5 => simp_all [Stretch.behind]

theorem closeString_append (line : Nat) (text : List Char) :
    (closeString line text).text ++ (closeString line text).rest.getD [] = text := by
  fun_induction closeString line text with
  | case1 | case2 => rfl
  | case3 => simp_all [Stretch.behind]

theorem slashPiece_append (line : Nat) (rest : List Char) :
    (slashPiece line rest).piece.text ++ (slashPiece line rest).rest = '/' :: rest := by
  unfold slashPiece
  split
  · simp [Cut.onLine, Piece.text, List.takeWhile_append_dropWhile]
  · next rest =>
    have whole := closeComment_append 0 line rest
    generalize closeComment 0 line rest = read at whole ⊢
    obtain ⟨body, last, _ | after⟩ := read <;> simpa [Piece.text] using whole
  · simp [Cut.onLine, Piece.text]

theorem stringPiece_append (line : Nat) (rest : List Char) :
    (stringPiece line rest).piece.text ++ (stringPiece line rest).rest = '"' :: rest := by
  have whole := closeString_append line rest
  unfold stringPiece
  generalize closeString line rest = read at whole ⊢
  obtain ⟨text, last, _ | after⟩ := read <;> simpa [Piece.text] using whole

theorem numberPiece_append (first : Char) (rest : List Char) :
    (numberPiece first rest).1.text ++ (numberPiece first rest).2 = first :: rest := by
  have split_rest := List.takeWhile_append_dropWhile (p := Char.isDigit) (l := rest)
  unfold numberPiece
  split
  · next d after h =>
    rw [h] at split_rest
    split
    · simp only [Piece.text, List.cons_append, List.append_assoc,
        List.takeWhile_append_dropWhile, split_rest]
    · simp only [Piece.text, List.cons_append, split_rest]
  · simp only [Piece.text, List.cons_append, split_rest]

theorem wordPiece_append (first : Char) (rest : List Char) :
    (wordPiece first rest).1.text ++ (wordPiece first rest).2 = first :: rest := by
  simp [wordPiece, Piece.text, List.takeWhile_append_dropWhile]

theorem operatorPiece_append (c : Char) (short long : Kind) (rest : List Char) :
    (operatorPiece c short long rest).1.text ++ (operatorPiece c short long rest).2 =
      c :: rest := by
  unfold operatorPiece
  split <;> simp [Piece.text]

section
variable (line : Nat) (c : Char) (rest : List Char)

theorem cut_append : (cut line c rest).piece.text ++ (cut line c rest).rest = c :: rest := by
  unfold cut
  split
  · simp [Cut.onLine, Piece.text]
  · exact operatorPiece_append ..
  · split
    · simp [Piece.text]
    split
    · next h => rw [slashPiece_append, h]
    split
    · next h => rw [stringPiece_append, h]
    split
    · exact numberPiece_append ..
    split
    · exact wordPiece_append ..
    · simp [Cut.onLine, Piece.text]

theorem cut_text_ne_nil : (cut line c rest).piece.text ≠ [] := by
  unfold cut slashPiece stringPiece numberPiece wordPiece operatorPiece
  repeat' split
  all_goals simp [Cut.onLine, Piece.text]

theorem length_cut_lt : (cut line c rest).rest.length < (c :: rest).length := by
  have := List.length_pos_iff.2 (cut_text_ne_nil line c rest)
  rw [← cut_append line c rest, List.length_append]
  omega

end

end Lox.Source
