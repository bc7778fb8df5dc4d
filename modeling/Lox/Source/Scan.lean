import Lox.Decimal.Reader
import Lox.Diagnostic.Static
import Lox.Source.Piece

/-!
# Tokens and lexical errors of a source text

The lexemes among the pieces become tokens, the pieces that are no part of a program become errors.
Both carry the line on which their piece ends; lines count from one.
-/

namespace Lox

namespace Source

def literal? (kind : Kind) (text : List Char) : Option Literal :=
  match kind with
  | .number => some (.number (Decimal.ofNumeral text))
  | .string => some (.string (String.ofList text.tail.dropLast))
  | _ => none

def Piece.token? (line : Nat) : Piece → Option Token
  | .lexeme kind text => some
    { kind := kind, lexeme := String.ofList text, literal := literal? kind text, line := line }
  | _ => none

/-- What is wrong with a piece, if anything is. -/
def Piece.fault? : Piece → Option LexicalCause
  | .stray c => some (.strayCharacter c)
  | .openString _ => some .openString
  | .openComment _ => some .openComment
  | _ => none

end Source

structure Scan where
  tokens : List Token
  errors : List LexicalError
  deriving Repr, DecidableEq

namespace Scan

open Source

/-- What is read, behind a piece that ends on the line. -/
def behind (p : Piece) (line : Nat) (s : Scan) : Scan where
  tokens := match p.token? line with
    | some t => t :: s.tokens
    | none => s.tokens
  errors := match p.fault? with
    | some cause => { line := line, cause := cause } :: s.errors
    | none => s.errors

/-- Reads a text that starts on the line, piece by piece. An error never stops the reading. -/
def ofText (line : Nat) : List Char → Scan
  | [] => { tokens := [Token.atEnd line], errors := [] }
  | c :: rest =>
    match _h : cut line c rest with
    | ⟨piece, last, after⟩ => (ofText last after).behind piece last
termination_by text => text.length
decreasing_by
  have := length_cut_lt line c rest
  rwa [_h] at this

def ofSource (source : String) : Scan :=
  ofText 1 source.toList

end Scan

end Lox
