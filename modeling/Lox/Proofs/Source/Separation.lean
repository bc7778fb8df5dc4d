import Lox.Proofs.Source.Munch

/-!
# Blanks keep pieces apart

No piece that is over looks further than to the first blank behind it. So it stays a piece, whatever
stood behind it, where a blank follows or the text ends, and the lexemes of a source can be written
anew with single spaces between them.
-/

namespace Lox.Source

-- ---------------------------------------------------------------------------
-- What is in front of a blank
-- ---------------------------------------------------------------------------

def beforeBlank (text : List Char) : List Char :=
  text.takeWhile (!isBlank ·)

/-- A piece that is over where a blank follows. A line comment goes on to the end of its line, and
what is not closed to the end of the text. -/
def Piece.EndsAtBlank : Piece → Prop
  | .lineComment _ | .openString _ | .openComment _ => False
  | _ => True

section
variable {after after' : List Char}

theorem beforeBlank_cons {c : Char} {rest : List Char} (h : beforeBlank (c :: rest) <+: after) :
    isBlank c ∨ ∃ tail, after = c :: tail ∧ beforeBlank rest <+: tail := by
  cases blank : isBlank c with
  | true => exact .inl rfl
  | false =>
    rw [beforeBlank, List.takeWhile_cons_of_pos (by simp [blank])] at h
    obtain ⟨more, rfl⟩ := h
    exact .inr ⟨_, rfl, more, rfl⟩

theorem beforeBlank_append (front : List Char) (h : beforeBlank after' <+: after) :
    beforeBlank (front ++ after') <+: front ++ after := by
  induction front with
  | nil => exact h
  | cons c front ih =>
    rw [List.cons_append, beforeBlank, List.takeWhile_cons]
    split
    · exact List.cons_prefix_cons.2 ⟨rfl, ih⟩
    · exact List.nil_prefix

theorem forall_isBlank {p : Char → Bool} (h : [' ', '\r', '\t', '\n'].all (!p ·)) {c : Char}
    (blank : isBlank c) : p c = false := by
  have none_of_four := List.all_eq_true.1 h c (by simpa using isBlank_iff.1 blank)
  simpa using none_of_four

theorem Stops.of_beforeBlank {p : Char → Bool} (hs : Stops p after)
    (hp : [' ', '\r', '\t', '\n'].all (!p ·)) (h : beforeBlank after' <+: after) :
    Stops p after' := by
  intro c hc
  cases after' with
  | nil => cases hc
  | cons d rest =>
    cases hc
    rcases beforeBlank_cons h with blank | ⟨tail, rfl, -⟩
    · exact forall_isBlank hp blank
    · exact hs c rfl

theorem Lexeme.of_beforeBlank {kind : Kind} {text : List Char} (hl : Lexeme after kind text)
    (h : beforeBlank after' <+: after) : Lexeme after' kind text := by
  cases hl with
  | punctuation hp => exact .punctuation hp
  | operator ho hs => exact .operator ho (hs.of_beforeBlank rfl h)
  | withEqual ho => exact .withEqual ho
  | slash hs => exact .slash (hs.of_beforeBlank rfl h)
  | string hb => exact .string hb
  | whole hd hs hp =>
    refine .whole hd (hs.of_beforeBlank rfl h) ?_
    rintro d rest rfl
    -- A number looks two characters ahead, and a point is no blank.
    rcases beforeBlank_cons h with blank | ⟨behind, rfl, second⟩
    · cases blank
    · rcases beforeBlank_cons second with blank | ⟨tail, rfl, -⟩
      · exact forall_isBlank rfl blank
      · exact hp d tail rfl
  | fraction hd hf hs => exact .fraction hd hf (hs.of_beforeBlank rfl h)
  | word hc hm hs hw => exact .word hc hm (hs.of_beforeBlank rfl h) hw

theorem Piece.Munched.of_beforeBlank {p : Piece} (hp : p.Munched after) (ends : p.EndsAtBlank)
    (h : beforeBlank after' <+: after) : p.Munched after' := by
  cases p with
  | lexeme kind text => exact Lexeme.of_beforeBlank hp h
  | lineComment | openString | openComment => exact ends.elim
  | _ => exact hp

end

-- ---------------------------------------------------------------------------
-- Lexemes with spaces between them
-- ---------------------------------------------------------------------------

def spaced (lexemes : List (Kind × List Char)) : List Piece :=
  (lexemes.map fun l => .lexeme l.1 l.2).intersperse (.blank ' ')

theorem spaced_cons_cons (l m : Kind × List Char) (rest : List (Kind × List Char)) :
    spaced (l :: m :: rest) = .lexeme l.1 l.2 :: .blank ' ' :: spaced (m :: rest) :=
  rfl

theorem cuts_spaced {lexemes : List (Kind × List Char)}
    (h : ∀ l ∈ lexemes, ∃ after, Lexeme after l.1 l.2) :
    Cuts ([' '].intercalate (lexemes.map Prod.snd)) (spaced lexemes) := by
  induction lexemes with
  | nil => exact .nil
  | cons l rest ih =>
    obtain ⟨⟨after, lexeme⟩, others⟩ := List.forall_mem_cons.1 h
    have alone (tail : List Char) (ht : beforeBlank tail = []) :
        (Piece.lexeme l.1 l.2).Munched tail := lexeme.of_beforeBlank (ht ▸ List.nil_prefix)
    cases rest with
    | nil =>
      have whole := Cuts.cons (alone [] rfl) .nil
      rw [List.append_nil] at whole
      simpa [spaced, Piece.text] using whole
    | cons m rest =>
      have space : (Piece.blank ' ').Munched ([' '].intercalate ((m :: rest).map Prod.snd)) :=
        .inl rfl
      have whole := Cuts.cons (alone _ rfl) (.cons space (ih others))
      rw [spaced_cons_cons]
      simpa [List.intercalate_cons_cons, Piece.text] using whole

theorem filterMap_spaced {α : Type} {f : Piece → Option α} (hf : f (.blank ' ') = none)
    (lexemes : List (Kind × List Char)) :
    (spaced lexemes).filterMap f = lexemes.filterMap fun l => f (.lexeme l.1 l.2) := by
  induction lexemes with
  | nil => rfl
  | cons l rest ih =>
    cases rest with
    | nil => rfl
    | cons m rest =>
      rw [spaced_cons_cons, List.filterMap_cons, List.filterMap_cons_none hf, ih]
      rfl

theorem lexeme?_spaced (lexemes : List (Kind × List Char)) :
    (spaced lexemes).filterMap Piece.lexeme? = lexemes :=
  (filterMap_spaced rfl lexemes).trans List.filterMap_some

theorem fault?_spaced (lexemes : List (Kind × List Char)) :
    (spaced lexemes).filterMap Piece.fault? = [] :=
  (filterMap_spaced rfl lexemes).trans (List.filterMap_eq_nil_iff.2 fun _ _ => rfl)

theorem lexeme_tokensFrom (line : Nat) (ps : List Piece) :
    (tokensFrom line ps).dropLast.map Token.lexeme =
      (ps.filterMap Piece.lexeme?).map fun l => String.ofList l.2 := by
  calc
    (tokensFrom line ps).dropLast.map Token.lexeme =
        (((tokensFrom line ps).map Token.bare).map fun b => b.2.1).dropLast := by
        rw [List.map_map, List.map_dropLast]
        rfl
    _ = (ps.filterMap Piece.lexeme?).map fun l => String.ofList l.2 := by
        rw [bare_tokensFrom, List.map_append, List.map_map]
        exact List.dropLast_concat

/-- The lexemes of a source with single spaces between them. -/
def respaced (source : String) : String :=
  " ".intercalate ((Scan.ofSource source).tokens.dropLast.map Token.lexeme)

theorem toList_respaced (source : String) : (respaced source).toList =
    [' '].intercalate (((pieces source.toList).filterMap Piece.lexeme?).map Prod.snd) := by
  rw [respaced, String.toList_intercalate, Scan.ofSource_eq, Scan.ofPieces, lexeme_tokensFrom,
    List.map_map]
  simp [Function.comp_def]

theorem lexeme_pieces (text : List Char) :
    ∀ l ∈ (pieces text).filterMap Piece.lexeme?, ∃ after, Lexeme after l.1 l.2 := by
  intro l hl
  obtain ⟨p, hp, found⟩ := List.mem_filterMap.1 hl
  obtain ⟨after, munched⟩ := (cuts_pieces text).munched p hp
  cases p with
  | lexeme kind text =>
    cases found
    exact ⟨after, munched⟩
  | _ => cases found

theorem pieces_respaced (source : String) : pieces (respaced source).toList =
    spaced ((pieces source.toList).filterMap Piece.lexeme?) := by
  rw [toList_respaced, ← (cuts_spaced (lexeme_pieces source.toList)).eq_pieces]

/-- The lexemes of a source with single spaces between them are read without lexical errors, and as
the same tokens, whatever stood between them in the source. -/
theorem lexemes_scan_again (source : String) :
    (Scan.ofSource (respaced source)).errors = [] ∧
      (Scan.ofSource (respaced source)).tokens.map Token.bare =
        (Scan.ofSource source).tokens.map Token.bare := by
  rw [Scan.ofSource_eq, Scan.ofSource_eq, Scan.ofPieces, Scan.ofPieces, pieces_respaced]
  constructor
  · have causes := map_errorsFrom 1 (spaced ((pieces source.toList).filterMap Piece.lexeme?))
    rw [fault?_spaced] at causes
    exact List.map_eq_nil_iff.1 causes
  · rw [bare_tokensFrom, bare_tokensFrom, lexeme?_spaced]

/-- What a comment keeps apart, a space keeps apart. -/
example : respaced "!/* no */=" = "! =" := by decide +kernel

end Lox.Source
