import Lox.Proofs.Grammar.Safety
import Lox.Proofs.Source.Munch

/-!
# The tokens of a source text

Every lexeme that is cut from a text is of a kind that fits what was cut: none is an end token, a
number is digits with at most one point among them, and numbers and strings carry their values. So
the tokens of any text are ended as the grammar wants them.
-/

namespace Lox.Source

open Grammar (WellEnded)

def Piece.Lexical : Piece → Prop
  | .lexeme kind text => kind ≠ .eof ∧ (kind = .number → Numeral text)
  | _ => True

theorem Lexeme.lexical {after text : List Char} {kind : Kind} (h : Lexeme after kind text) :
    (Piece.lexeme kind text).Lexical := by
  cases h.spelling with
  | fixed hf =>
    have table : ∀ entry ∈ fixedLexemes, entry.1 ≠ .eof ∧ entry.1 ≠ .number := by decide
    exact ⟨(table _ hf).1, fun number => absurd number (table _ hf).2⟩
  | number numeral => exact ⟨by decide, fun _ => numeral⟩
  | string | name => exact ⟨by decide, nofun⟩

theorem lexical_pieces (text : List Char) : ∀ p ∈ pieces text, p.Lexical := by
  intro p hp
  obtain ⟨after, munched⟩ := (cuts_pieces text).munched p hp
  cases p with
  | lexeme kind text => exact Lexeme.lexical munched
  | _ => trivial

structure Proper (t : Token) : Prop where
  kind : t.kind ≠ .eof
  number : t.kind = .number → ∃ x, t.literal = some (.number x) ∧ Numeral t.lexeme.toList
  string : t.kind = .string → ∃ text, t.literal = some (.string text)

theorem Piece.Lexical.proper {p : Piece} (hp : p.Lexical) {line : Nat} {t : Token}
    (ht : p.token? line = some t) : Proper t := by
  cases p with
  | lexeme kind text =>
    cases ht
    refine ⟨hp.1, ?_, ?_⟩
    · rintro rfl
      exact ⟨_, rfl, by simpa using hp.2 rfl⟩
    · rintro rfl
      exact ⟨_, rfl⟩
  | _ => cases ht

theorem Proper.valued {t : Token} (h : Proper t) : t.Valued where
  number := fun hk => (h.number hk).imp fun _ carried => carried.1
  string := h.string

theorem tokensFrom_eq {ps : List Piece} (hp : ∀ p ∈ ps, p.Lexical) (line : Nat) :
    ∃ before last, tokensFrom line ps = before ++ [Token.atEnd last] ∧ ∀ t ∈ before, Proper t := by
  induction ps generalizing line with
  | nil => exact ⟨[], line, rfl, by simp⟩
  | cons p rest ih =>
    obtain ⟨before, last, tokens, proper⟩ :=
      ih (fun q hq => hp q (List.mem_cons_of_mem _ hq)) (line + p.newlines)
    unfold tokensFrom
    dsimp only
    rw [tokens]
    cases ht : p.token? (line + p.newlines) with
    | none => exact ⟨before, last, rfl, proper⟩
    | some t =>
      refine ⟨t :: before, last, rfl, ?_⟩
      rintro u (_ | ⟨_, hu⟩)
      · exact (hp p (List.mem_cons_self ..)).proper ht
      · exact proper u hu

theorem wellEnded_of_proper {before : List Token} (h : ∀ t ∈ before, Proper t) (last : Nat) :
    WellEnded (before ++ [Token.atEnd last]) := by
  induction before with
  | nil => exact .atEnd rfl
  | cons t rest ih =>
    have proper := h t (List.mem_cons_self ..)
    exact .cons proper.kind proper.valued.constant (ih fun u hu => h u (List.mem_cons_of_mem _ hu))

/-- The tokens of a source text: those of its lexemes, and one at the end. -/
theorem tokens_ofSource (source : String) :
    ∃ before last, (Scan.ofSource source).tokens = before ++ [Token.atEnd last] ∧
      ∀ t ∈ before, Proper t := by
  rw [Scan.ofSource_eq]
  exact tokensFrom_eq (lexical_pieces source.toList) 1

end Lox.Source
