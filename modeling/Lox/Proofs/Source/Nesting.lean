import Lox.Proofs.Source.LineNumbers

/-!
# Comments nest

A comment may hold comments, to any depth, and is over with the delimiter that closes the outermost
one: no earlier text closes it, and what follows it is read as if it stood alone, on later lines.
-/

namespace Lox.Source

-- ---------------------------------------------------------------------------
-- Comments in comments
-- ---------------------------------------------------------------------------

def enclosed (inner : List Char) : List Char :=
  '/' :: '*' :: (inner ++ ['*', '/'])

/-- What stands in a comment: text without slashes, and comments. The text in front of a comment
does not end in a star, which would be half of a closing delimiter. -/
inductive Inside : List Char → Prop
  | filler {text : List Char} : '/' ∉ text → Inside text
  | comment {text inner rest : List Char} : '/' ∉ text → text.getLast? ≠ some '*' → Inside inner →
    Inside rest → Inside (text ++ enclosed inner ++ rest)

/-- The text of a comment, from the delimiter that opens it to the one that closes it. -/
def NestedComment (text : List Char) : Prop :=
  ∃ inner, Inside inner ∧ text = enclosed inner

-- ---------------------------------------------------------------------------
-- Where they close
-- ---------------------------------------------------------------------------

theorem Closing.filler {text rest : List Char} (hs : '/' ∉ text)
    (hl : text.getLast? = some '*' → rest.head? ≠ some '/') (closing : Closing rest) :
    Closing (text ++ rest) := by
  induction text with
  | nil => exact closing
  | cons c text ih =>
    have others := List.not_mem_of_not_mem_cons hs
    refine .char ?_ (ih others ?_)
    · rintro (⟨tail, opens⟩ | ⟨tail, closes⟩)
      · exact List.ne_of_not_mem_cons hs (List.cons.inj opens).1.symm
      · obtain ⟨rfl, slash⟩ := List.cons.inj closes
        cases text with
        | nil => exact hl rfl (congrArg List.head? slash)
        | cons d text => exact List.ne_of_not_mem_cons others (List.cons.inj slash).1.symm
    · intro star
      cases text with
      | nil => cases star
      | cons d text => exact hl (by rwa [List.getLast?_cons_cons])

theorem Inside.closing {inner : List Char} (h : Inside inner) : Closing (inner ++ ['*', '/']) := by
  induction h with
  | filler hs => exact .filler hs (fun _ => by simp) .close
  | @comment text inner rest hs star _ _ closes closesRest =>
    have nested : Closing (enclosed inner ++ (rest ++ ['*', '/'])) := by
      simpa [enclosed] using Closing.comment closes closesRest
    rw [List.append_assoc, List.append_assoc]
    exact .filler hs (fun h => absurd h star) nested

theorem Closing.eq_of_prefix {front body : List Char} (hf : Closing front) (hb : Closing body)
    (h : front <+: body) : front = body := by
  obtain ⟨more, rfl⟩ := h
  have early := (hf.closeComment 0 more).1
  have whole := (hb.closeComment 0 []).1
  rw [List.append_nil, early] at whole
  exact congrArg Stretch.text whole

-- ---------------------------------------------------------------------------
-- What is read
-- ---------------------------------------------------------------------------

theorem eq_cons_of_prefix_enclosed {front inner : List Char} (h : front <+: enclosed inner)
    (long : 2 ≤ front.length) :
    ∃ body, front = '/' :: '*' :: body ∧ body <+: inner ++ ['*', '/'] := by
  rcases front with _ | ⟨c, _ | ⟨d, body⟩⟩
  · simp at long
  · simp at long
  · obtain ⟨rfl, behind⟩ := List.cons_prefix_cons.1 h
    obtain ⟨rfl, hb⟩ := List.cons_prefix_cons.1 behind
    exact ⟨body, rfl, hb⟩

theorem pieces_enclosed {inner : List Char} (h : Inside inner) (rest : List Char) :
    pieces (enclosed inner ++ rest) = .blockComment (inner ++ ['*', '/']) :: pieces rest := by
  have munched : (Piece.blockComment (inner ++ ['*', '/'])).Munched rest := h.closing
  exact (Cuts.cons munched (cuts_pieces rest)).eq_pieces.symm

theorem pieces_cut_off {inner body : List Char} (h : Inside inner)
    (hb : body <+: inner ++ ['*', '/']) (hne : body ≠ inner ++ ['*', '/']) :
    pieces ('/' :: '*' :: body) = [.openComment body] := by
  have munched : (Piece.openComment body).Munched [] := by
    refine ⟨?_, rfl⟩
    rintro closed rest rfl closing
    have front := (List.prefix_append closed rest).trans hb
    rw [← closing.eq_of_prefix h.closing front] at hb hne
    exact hne (hb.eq_of_length_le (by simp))
  have cuts := Cuts.cons munched .nil
  rw [List.append_nil] at cuts
  exact cuts.eq_pieces.symm

/-- A comment with comments in it to any depth is passed over to its end: what follows it is read as
it is alone, as many lines later as the comment goes on for. Cut off anywhere behind the delimiter
that opens it, the comment is a single error on its last line. -/
theorem nested_comments_are_skipped {comment : String} (h : NestedComment comment.toList)
    (rest : String) :
    Scan.ofSource (comment ++ rest) =
        (Scan.ofSource rest).relabel (· + comment.toList.count '\n') ∧
      ∀ front : String, front.toList <+: comment.toList → front ≠ comment → 2 ≤ front.length →
        Scan.ofSource front =
          { tokens := [Token.atEnd (lineAfter front.toList)]
            errors := [⟨lineAfter front.toList, .openComment⟩] } := by
  obtain ⟨inner, inside, text⟩ := h
  constructor
  · rw [Scan.ofSource_eq, String.toList_append, text, pieces_enclosed inside, Scan.ofSource_eq,
      ← Scan.ofPieces_add]
    rfl
  · intro front hp hne long
    rw [text] at hp
    rw [← String.length_toList] at long
    obtain ⟨body, opens, hb⟩ := eq_cons_of_prefix_enclosed hp long
    have short : body ≠ inner ++ ['*', '/'] := by
      rintro rfl
      exact hne (String.toList_inj.1 (opens.trans text.symm))
    rw [Scan.ofSource_eq, opens, pieces_cut_off inside hb short]
    rfl

theorem nested_comments_are_skipped_inner :
    NestedComment "/*a/*\n*/**/".toList ∧
      Scan.ofSource ("/*a/*\n*/**/" ++ "@ x") = (Scan.ofSource "@ x").relabel (· + 1) ∧
      ("/*a/".toList <+: "/*a/*\n*/**/".toList ∧ "/*a/" ≠ "/*a/*\n*/**/" ∧ 2 ≤ "/*a/".length) ∧
      Scan.ofSource "/*a/" = { tokens := [Token.atEnd 1], errors := [⟨1, .openComment⟩] } := by
  have inside : Inside (['a'] ++ enclosed ['\n'] ++ ['*']) :=
    .comment (by decide) (by decide) (.filler (by decide)) (.filler (by decide))
  have nested : NestedComment "/*a/*\n*/**/".toList := ⟨_, inside, rfl⟩
  have front : "/*a/".toList <+: "/*a/*\n*/**/".toList := by decide
  have read := nested_comments_are_skipped nested "@ x"
  exact ⟨nested, read.1, ⟨front, by decide, by decide⟩, read.2 "/*a/" front (by decide) (by decide)⟩

end Lox.Source
