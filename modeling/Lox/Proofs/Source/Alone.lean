import Lox.Proofs.Source.Separation
import Lox.Proofs.Syntax.Lines

/-!
# Lexemes by themselves

A lexeme that is cut out of a source and read alone is the same lexeme. So the text of a token tells
its kind and its value too: of the token only the line is lost (`Scanned.alone_lexeme`).
-/

namespace Lox.Source

/-- A token as it is read from a text: a lexeme with its value. -/
structure Scanned (t : Token) : Prop where
  lexeme : ∃ after, Lexeme after t.kind t.lexeme.toList
  value : t.literal = literal? t.kind t.lexeme.toList

theorem scanned_of_mem {source : String} {t : Token} (ht : t ∈ (Scan.ofSource source).tokens)
    (hk : t.kind ≠ .eof) : Scanned t := by
  rw [Scan.ofSource_eq] at ht
  rcases mem_tokensFrom ht with atEnd | ⟨piece, value⟩
  · exact absurd atEnd hk
  · exact ⟨(cuts_pieces source.toList).munched _ piece, value⟩

def alone (text : String) : Token :=
  ((Scan.ofSource text).tokens.headD (Token.atEnd 0)).relabel fun _ => 0

theorem alone_of_cut {c : Char} {rest text after : List Char} {kind : Kind}
    (h : (cut 1 c rest).parts = (.lexeme kind text, after)) :
    alone (String.ofList (c :: rest)) = ⟨kind, String.ofList text, literal? kind text, 0⟩ := by
  obtain ⟨piece, -⟩ := Prod.mk.inj h
  rw [alone, Scan.ofSource_eq, String.toList_ofList, pieces, piecesFrom_cons, piece]
  rfl

theorem Scanned.alone_lexeme {t : Token} (h : Scanned t) :
    alone t.lexeme = t.relabel fun _ => 0 := by
  obtain ⟨after, lexeme⟩ := h.lexeme
  have whole : (Piece.lexeme t.kind t.lexeme.toList).Munched [] :=
    lexeme.of_beforeBlank List.nil_prefix
  have nonempty : t.lexeme.toList ≠ [] := whole.text_ne_nil
  obtain ⟨c, rest, text⟩ := List.exists_cons_of_ne_nil nonempty
  have read := alone_of_cut (cut_of_lexeme whole ((List.append_nil _).trans text))
  rw [← text, String.ofList_toList, ← h.value] at read
  exact read

end Lox.Source
