import Lox.Proofs.Source.Separation

/-!
# Comments are blank space

A comment can be overwritten by a space and the line ends that it holds: the pieces around it stay
the same pieces on the same lines, and with them the tokens and the errors.
-/

namespace Lox.Source

-- ---------------------------------------------------------------------------
-- Overwriting
-- ---------------------------------------------------------------------------

def Piece.isComment : Piece → Bool
  | .lineComment _ | .blockComment _ => true
  | _ => false

/-- The text of a piece, but for a comment a space and the line ends in it. -/
def Piece.blanked (p : Piece) : List Char :=
  if p.isComment then ' ' :: List.replicate p.newlines '\n' else p.text

def Piece.overwritten (p : Piece) : List Piece :=
  if p.isComment then p.blanked.map .blank else [p]

/-- The source with its comments overwritten by blanks. -/
def uncommented (source : String) : String :=
  String.ofList ((pieces source.toList).flatMap Piece.blanked)

section
variable {p : Piece}

theorem Piece.blanked_comment (h : p.isComment) :
    p.blanked = ' ' :: List.replicate p.newlines '\n' :=
  if_pos h

theorem Piece.blanked_other (h : p.isComment = false) : p.blanked = p.text := by
  simp [blanked, h]

theorem Piece.overwritten_comment (h : p.isComment) : p.overwritten = p.blanked.map .blank :=
  if_pos h

theorem Piece.overwritten_other (h : p.isComment = false) : p.overwritten = [p] := by
  simp [overwritten, h]

theorem Piece.isBlank_of_mem_blanked (h : p.isComment) : ∀ c ∈ p.blanked, isBlank c := by
  rw [blanked_comment h]
  intro c hc
  rcases List.mem_cons.1 hc with rfl | hc
  · rfl
  · rw [List.eq_of_mem_replicate hc]
    rfl

theorem Piece.count_blanked (p : Piece) : p.blanked.count '\n' = p.newlines := by
  cases h : p.isComment with
  | true => simp [blanked_comment h]
  | false => rw [blanked_other h, newlines]

theorem Piece.isComment_of_mem_overwritten {q : Piece} (h : q ∈ p.overwritten) :
    q.isComment = false := by
  cases hp : p.isComment with
  | true =>
    rw [overwritten_comment hp] at h
    obtain ⟨c, -, rfl⟩ := List.mem_map.1 h
    rfl
  | false =>
    rw [overwritten_other hp, List.mem_singleton] at h
    exact h ▸ hp

-- ---------------------------------------------------------------------------
-- The pieces of what is left
-- ---------------------------------------------------------------------------

theorem Cuts.beforeBlank_blanked {text : List Char} {ps : List Piece} (h : Cuts text ps) :
    beforeBlank (ps.flatMap Piece.blanked) <+: text := by
  induction h with
  | nil => exact List.nil_prefix
  | @cons p after ps _ _ ih =>
    rw [List.flatMap_cons]
    cases hc : p.isComment with
    | true =>
      rw [Piece.blanked_comment hc]
      exact List.nil_prefix
    | false =>
      rw [Piece.blanked_other hc]
      exact beforeBlank_append p.text ih

theorem Piece.Munched.before_blanked {after : List Char} {ps : List Piece} (hp : p.Munched after)
    (hc : p.isComment = false) (h : Cuts after ps) : p.Munched (ps.flatMap Piece.blanked) := by
  -- Nothing follows what is not closed, so nothing there can be overwritten.
  have last (none_left : after = []) : ps.flatMap Piece.blanked = [] := by
    rw [h.eq_pieces, none_left, pieces_nil, List.flatMap_nil]
  cases p with
  | lineComment | blockComment => cases hc
  | openString => exact ⟨hp.1, last hp.2⟩
  | openComment => exact ⟨hp.1, last hp.2⟩
  | _ => exact hp.of_beforeBlank trivial h.beforeBlank_blanked

theorem Cuts.blanks {bs after : List Char} {ps : List Piece} (hb : ∀ c ∈ bs, isBlank c)
    (h : Cuts after ps) : Cuts (bs ++ after) (bs.map .blank ++ ps) := by
  induction bs with
  | nil => exact h
  | cons c bs ih =>
    obtain ⟨first, others⟩ := List.forall_mem_cons.1 hb
    exact .cons (show (Piece.blank c).Munched _ from isBlank_iff.1 first) (ih others)

theorem Cuts.overwritten {text : List Char} {ps : List Piece} (h : Cuts text ps) :
    Cuts (ps.flatMap Piece.blanked) (ps.flatMap Piece.overwritten) := by
  induction h with
  | nil => exact .nil
  | @cons p after ps hp behind ih =>
    rw [List.flatMap_cons, List.flatMap_cons]
    cases hc : p.isComment with
    | true =>
      rw [Piece.overwritten_comment hc]
      exact ih.blanks (Piece.isBlank_of_mem_blanked hc)
    | false =>
      rw [Piece.blanked_other hc, Piece.overwritten_other hc]
      exact .cons (hp.before_blanked hc behind) ih

theorem pieces_uncommented (source : String) : pieces (uncommented source).toList =
    (pieces source.toList).flatMap Piece.overwritten := by
  rw [uncommented, String.toList_ofList, ← (cuts_pieces source.toList).overwritten.eq_pieces]

-- ---------------------------------------------------------------------------
-- What is read from them
-- ---------------------------------------------------------------------------

theorem scan_blanks (bs : List Char) (line : Nat) (ps : List Piece) :
    Scan.ofPieces line (bs.map .blank ++ ps) = Scan.ofPieces (line + bs.count '\n') ps := by
  induction bs generalizing line with
  | nil => rfl
  | cons c bs ih =>
    have first : (c :: bs).count '\n' = (Piece.blank c).newlines + bs.count '\n' := by
      rw [Piece.newlines, Piece.text, ← List.count_append, List.singleton_append]
    rw [first, ← Nat.add_assoc, ← ih]
    rfl

theorem scan_comment {p : Piece} (h : p.isComment) (line : Nat) (ps : List Piece) :
    Scan.ofPieces line (p :: ps) = Scan.ofPieces (line + p.newlines) ps := by
  cases p with
  | lineComment | blockComment => rfl
  | _ => cases h

theorem scan_overwritten (ps : List Piece) (line : Nat) :
    Scan.ofPieces line (ps.flatMap Piece.overwritten) = Scan.ofPieces line ps := by
  induction ps generalizing line with
  | nil => rfl
  | cons p rest ih =>
    rw [List.flatMap_cons]
    cases hc : p.isComment with
    | true =>
      rw [Piece.overwritten_comment hc, scan_blanks, Piece.count_blanked, scan_comment hc, ih]
    | false =>
      rw [Piece.overwritten_other hc, List.singleton_append]
      exact Scan.ofPieces_cons_congr ih line p

end

/-- A source is read as the source without its comments: the same tokens with the same values on the
same lines, and the same errors. -/
theorem comments_read_as_blanks (source : String) :
    Scan.ofSource (uncommented source) = Scan.ofSource source ∧
      ∀ p ∈ pieces (uncommented source).toList, p.isComment = false := by
  constructor
  · rw [Scan.ofSource_eq, pieces_uncommented, scan_overwritten, Scan.ofSource_eq]
  · rw [pieces_uncommented]
    intro q hq
    obtain ⟨p, -, hq⟩ := List.mem_flatMap.1 hq
    exact Piece.isComment_of_mem_overwritten hq

/-- What a comment keeps apart stays apart, and what is not closed is no comment. -/
example : uncommented "=/* a\n// */= \"//\" // b\n/* /*" = "= \n= \"//\"  \n/* /*" := by
  decide +kernel

end Lox.Source
