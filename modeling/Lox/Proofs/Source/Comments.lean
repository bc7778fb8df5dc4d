import Lox.Proofs.Source.Counting

/-!
# Nested comments

What closes a comment, said by the delimiters that stand in it, and that this is what is looked for:
`closeComment` finds the closing text at the front of its text if there is one, and nothing else.
-/

namespace Lox.Source

def Delimits (text : List Char) : Prop :=
  (∃ rest, text = '/' :: '*' :: rest) ∨ ∃ rest, text = '*' :: '/' :: rest

/-- What follows the `/*` of a comment up to and with the `*/` that closes it. Comments inside are
closed inside. -/
inductive Closing : List Char → Prop
  | close : Closing ['*', '/']
  | char {c : Char} {rest : List Char} : ¬ Delimits (c :: rest) → Closing rest → Closing (c :: rest)
  | comment {inner rest : List Char} :
    Closing inner → Closing rest → Closing ('/' :: '*' :: (inner ++ rest))

theorem closeComment_char {c : Char} {rest : List Char} (h : ¬ Delimits (c :: rest))
    (depth line : Nat) : closeComment depth line (c :: rest) =
      (closeComment depth (lineBehind line c) rest).behind [c] := by
  rw [closeComment]
  · rintro tail rfl rfl
    exact h (.inl ⟨tail, rfl⟩)
  · rintro tail _ rfl rfl
    exact h (.inr ⟨tail, rfl⟩)
  · rintro _ tail _ rfl rfl
    exact h (.inr ⟨tail, rfl⟩)

theorem Closing.ne_nil {text : List Char} (h : Closing text) : text ≠ [] := by
  cases h <;> exact List.cons_ne_nil _ _

theorem Delimits.append {text : List Char} (h : Delimits text) (after : List Char) :
    Delimits (text ++ after) := by
  obtain ⟨rest, rfl⟩ | ⟨rest, rfl⟩ := h
  · exact .inl ⟨_, rfl⟩
  · exact .inr ⟨_, rfl⟩

theorem Delimits.of_append {c : Char} {rest after : List Char} (hr : rest ≠ [])
    (h : Delimits (c :: (rest ++ after))) : Delimits (c :: rest) := by
  cases rest with
  | nil => exact absurd rfl hr
  | cons d rest =>
    rcases h with ⟨tail, h⟩ | ⟨tail, h⟩
    · cases h
      exact .inl ⟨rest, rfl⟩
    · cases h
      exact .inr ⟨rest, rfl⟩

theorem Closing.closeComment {body : List Char} (h : Closing body) (line : Nat)
    (after : List Char) :
    Source.closeComment 0 line (body ++ after) =
        ⟨body, line + body.count '\n', some after⟩ ∧
      ∀ depth, Source.closeComment (depth + 1) line (body ++ after) =
        (Source.closeComment depth (line + body.count '\n') after).behind body := by
  induction h generalizing line after with
  | close => exact ⟨by simp [Source.closeComment], fun depth => by simp [Source.closeComment]⟩
  | @char c rest hd hr ih =>
    have plain : ¬ Delimits (c :: (rest ++ after)) := fun hs => hd (hs.of_append hr.ne_nil)
    have counted : lineBehind line c + rest.count '\n' = line + (c :: rest).count '\n' := by
      rw [lineBehind_eq, Nat.add_assoc, ← List.count_append, List.singleton_append]
    refine ⟨?_, fun depth => ?_⟩
    · rw [List.cons_append, closeComment_char plain, (ih _ after).1, counted]
      rfl
    · rw [List.cons_append, closeComment_char plain, (ih _ after).2, counted]
      rfl
  | @comment inner rest hi hr ihi ihr =>
    have counted : line + inner.count '\n' + rest.count '\n' =
        line + ('/' :: '*' :: (inner ++ rest)).count '\n' := by simp [Nat.add_assoc]
    refine ⟨?_, fun depth => ?_⟩
    · rw [List.cons_append, List.cons_append, List.append_assoc, Source.closeComment,
        (ihi line _).2, (ihr _ after).1, counted]
      rfl
    · rw [List.cons_append, List.cons_append, List.append_assoc, Source.closeComment,
        (ihi line _).2, (ihr _ after).2, counted]
      simp [Stretch.behind]

/-- What closes a comment and those around it is one closing text after the other. -/
theorem closing_of_closeComment {depth line : Nat} {text after : List Char}
    (h : (closeComment depth line text).rest = some after) :
    ∃ closings : List (List Char), closings.length = depth + 1 ∧ (∀ t ∈ closings, Closing t) ∧
      (closeComment depth line text).text = closings.flatten := by
  fun_induction closeComment depth line text with
  | case1 => cases h
  | case2 depth line rest ih =>
    obtain ⟨closings, count, closed, whole⟩ := ih h
    -- The first text closes the comment that opens here; it and the second one are one text.
    rcases closings with _ | ⟨inner, _ | ⟨outer, others⟩⟩
    · cases count
    · cases count
    · refine ⟨('/' :: '*' :: (inner ++ outer)) :: others, by simpa using count, ?_, ?_⟩
      · simp only [List.forall_mem_cons] at closed ⊢
        exact ⟨.comment closed.1 closed.2.1, closed.2.2⟩
      · simp [Stretch.behind, whole]
  | case3 line rest => exact ⟨[['*', '/']], rfl, by simpa using Closing.close, rfl⟩
  | case4 line rest depth ih =>
    obtain ⟨closings, count, closed, whole⟩ := ih h
    exact ⟨['*', '/'] :: closings, by simp [count], List.forall_mem_cons.2 ⟨.close, closed⟩,
      by simp [Stretch.behind, whole]⟩
  | case5 depth line c rest opens closes closesAll ih =>
    obtain ⟨closings, count, closed, whole⟩ := ih h
    have plain : ¬ Delimits (c :: rest) := by
      rintro (⟨tail, h⟩ | ⟨tail, h⟩)
      · cases h
        exact opens tail rfl rfl
      · cases h
        cases depth with
        | zero => exact closes tail rfl rfl rfl
        | succ depth => exact closesAll depth tail rfl rfl rfl
    cases closings with
    | nil => cases count
    | cons first others =>
      have text_rest := closeComment_append depth (lineBehind line c) rest
      rw [whole, List.flatten_cons, List.append_assoc] at text_rest
      have front : ¬ Delimits (c :: first) := fun hd => plain (text_rest ▸ hd.append _)
      simp only [List.forall_mem_cons] at closed
      exact ⟨(c :: first) :: others, count,
        List.forall_mem_cons.2 ⟨.char front closed.1, closed.2⟩, by simp [Stretch.behind, whole]⟩

theorem closing_of_closeComment_zero {line : Nat} {text after : List Char}
    (h : (closeComment 0 line text).rest = some after) :
    Closing (closeComment 0 line text).text := by
  obtain ⟨closings, count, closed, whole⟩ := closing_of_closeComment h
  obtain ⟨closing, rfl⟩ := List.length_eq_one_iff.1 count
  rw [whole, List.flatten_singleton]
  exact closed closing (List.mem_singleton_self _)

end Lox.Source
