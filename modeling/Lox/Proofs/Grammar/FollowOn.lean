import Lox.Proofs.Grammar.Stumbling

/-!
# Errors that follow from one mistake

If the expression of a `print` is missing, reading goes on behind the semicolon, at top level. A
`print` that stands at top level has no other error behind it. Inside a block the closing brace is
in the way: the second error is found there, and all others at later braces and `else`
(`missing_expression_reports`).
-/

namespace Lox.Grammar

-- ---------------------------------------------------------------------------
-- Programs
-- ---------------------------------------------------------------------------

theorem synchronize_semicolon {semicolon : Token} {more : List Token}
    (hs : semicolon.kind = .semicolon) (hm : more ≠ []) :
    synchronize (semicolon :: more) = .ok more := by
  obtain ⟨t, more, rfl⟩ := List.exists_cons_of_ne_nil hm
  simp [synchronize, skip, hs]

/-- A `print` of a program without errors has an expression and a semicolon behind it. If the
expression is missing, that is the first error, and reading goes on behind the semicolon. -/
theorem program_stumbles {n : Nat} {before rest : List Token} {p : Token} {r : Reading}
    (h : program n (before ++ p :: rest) = .ok r) (clean : r.findings = []) (hp : p.kind = .kwPrint)
    (inside : ∀ t ∈ before, t.kind ≠ .eof) :
    (∃ taken semicolon left, rest = taken ++ semicolon :: left ∧
        (∀ t ∈ taken, t.kind ≠ .semicolon) ∧ semicolon.kind = .semicolon ∧ Tail left) ∧
      ∀ semicolon more r₂, semicolon.kind = .semicolon → parse more = .ok r₂ →
        steps more.length + before.length + 1 ≤ n → ∃ r',
          program n (before ++ p :: semicolon :: more) = .ok r' ∧
            r'.findings = Finding.at semicolon more .expectedExpression :: r₂.findings := by
  induction n generalizing before r with
  | zero => cases h
  | succ n ih =>
    obtain ⟨t, others, -, mem, here⟩ := exists_append_cons_eq_cons before p
    have ht : t.kind ≠ .eof := by
      rcases List.mem_append.1 mem with mem | mem
      · exact inside t mem
      · simp [List.mem_singleton.1 mem, hp]
    rw [here] at h
    obtain ⟨s, after, r₁, first, later, none, -⟩ := program_cons_eq_ok h clean ht
    rw [← here] at first
    obtain ⟨taken, split, -⟩ := repeats_declaration n _ _ _ first
    -- The keyword stands behind the first declaration, or in it.
    obtain ⟨next, rfl, rfl⟩ | ⟨next, rfl, rfl⟩ := append_eq_append_cons split
    · have spent := spends_declaration n (taken ++ next ++ p :: rest)
      rw [first] at spent
      have shorter := spent.least
      simp only [List.length_append, List.length_cons] at shorter
      obtain ⟨closed, again⟩ := ih later none fun t mem => inside t (List.mem_append_right _ mem)
      refine ⟨closed, fun semicolon more r₂ hs hm enough => ?_⟩
      rw [List.length_append] at enough
      obtain ⟨r', read, findings⟩ := again semicolon more r₂ hs hm (by omega)
      have first' := (repeats_declaration n).again first (semicolon :: more)
      rw [here] at first' ⊢
      exact ⟨_, program_of_read ht first' read, findings⟩
    · have stumbles := stumbles_declaration n before p _ s after hp first (List.suffix_append ..)
      obtain ⟨taken, semicolon, left, split, unclosed, hs, tail⟩ := stumbles.closed
      refine ⟨⟨taken, semicolon, left, split, unclosed, hs, tail (tail_of_program later none)⟩, ?_⟩
      intro semicolon more r₂ hs hm enough
      have read : program n more = .ok r₂ := by rw [program_eq_parse (by omega), hm]
      have stuck := stumbles.stuck semicolon more hs
      have goesOn : synchronize (semicolon :: more) = .ok more :=
        synchronize_semicolon hs (by rintro rfl; cases hm)
      rw [here] at stuck ⊢
      exact ⟨_, program_of_stuck ht stuck goesOn read, rfl⟩

-- ---------------------------------------------------------------------------
-- Where the next error is
-- ---------------------------------------------------------------------------

theorem append_cons_eq_append_cons {a b rest more : List Token} {t u : Token}
    (h : a ++ t :: rest = b ++ u :: more) :
    (∃ next, a = b ++ u :: next) ∨ (a = b ∧ t = u ∧ rest = more) ∨ ∃ next, b = a ++ t :: next := by
  obtain ⟨next, rfl, here⟩ | ⟨next, rfl, -⟩ := append_eq_append_cons h
  · cases next with
    | nil =>
      obtain ⟨rfl, rfl⟩ := List.cons.inj here
      exact .inr (.inl ⟨List.append_nil b, rfl, rfl⟩)
    | cons v next =>
      obtain ⟨rfl, -⟩ := List.cons.inj here
      exact .inl ⟨next, rfl⟩
  · exact .inr (.inr ⟨next, rfl⟩)

theorem Viable.of_append {word more : List Kind} (h : Viable (word ++ more)) : Viable word := by
  obtain ⟨rest, mem⟩ := h
  exact ⟨more ++ rest, by rwa [← List.append_assoc]⟩

theorem not_viable_brace {word : List Kind} (h : word ∈ programs) :
    ¬ Viable (word ++ [.rightBrace]) := by
  rintro ⟨more, mem⟩
  have balanced := (Derives.balanced h).1 rfl
  have within := ((Derives.balanced mem).1 rfl).within _ _ rfl
  rw [List.count_append, List.count_append, balanced.settled] at within
  have one : [Kind.rightBrace].count .rightBrace = 1 := rfl
  have none : [Kind.rightBrace].count .leftBrace = 0 := rfl
  omega

theorem not_viable_end (word : List Kind) : ¬ Viable (word ++ [.eof]) := by
  rintro ⟨more, mem⟩
  have closed (p : Part) : p.production.over (fun _ => true) (· ≠ .eof) = true := by
    cases p with
    | operation levels => exact Part.over_operation rfl (fun _ => rfl) (by rintro ⟨⟩ <;> rfl) levels
    | _ => rfl
  have none := Derives.over (P := fun _ => true) (fun p _ => closed p) mem rfl .eof (by simp)
  cases none

section
variable {m : Nat} {before rest : List Token} {t : Token} {r : Reading}

/-- The first error behind a program is at the next token or behind that. -/
theorem first_error_behind {f : Finding} {others : List Finding}
    (h : program m (before ++ t :: rest) = .ok r) (whole : kinds before ∈ programs)
    (blocking : r.blocking = f :: others) :
    Viable (kinds before ++ [t.kind]) ∨ t.kind ≠ .eof ∧ ∃ cause, f = Finding.at t rest cause := by
  have located := program_located h
  unfold Reading.Located at located
  rw [blocking] at located
  obtain ⟨taken, u, more, cause, split, rfl, viable, dead⟩ := located
  have ended : kinds before ++ [.eof] ∈ wholePrograms :=
    Language.append_mem_mul whole (mem_language_last.2 rfl)
  obtain ⟨next, rfl⟩ | ⟨rfl, rfl, rfl⟩ | ⟨next, rfl⟩ := append_cons_eq_append_cons split
  · rw [kinds_append, List.append_assoc] at ended
    exact absurd ended (dead _ rfl)
  · exact .inr ⟨fun ht => dead [.eof] (congrArg some ht.symm) ended, cause, rfl⟩
  · have longer : Viable (kinds before ++ [t.kind] ++ kinds next) := by simpa [kinds] using viable
    exact .inl longer.of_append

theorem viable_of_no_error (h : program m (before ++ t :: rest) = .ok r)
    (inside : ∀ u ∈ before, u.kind ≠ .eof) (ht : t.kind ≠ .eof) (none : r.blocking = []) :
    Viable (kinds before ++ [t.kind]) := by
  have located := program_located h
  unfold Reading.Located at located
  rw [none] at located
  obtain ⟨taken, last, more, split, hl, mem⟩ := located
  obtain ⟨next, rfl⟩ | ⟨-, rfl, -⟩ | ⟨next, rfl⟩ := append_cons_eq_append_cons split
  · exact absurd hl (inside last (by simp))
  · exact absurd hl ht
  · exact ⟨kinds next, by simpa [kinds] using mem⟩

theorem blocking_eq_nil (h : program m (before ++ t :: rest) = .ok r)
    (whole : kinds before ∈ programs) (ht : t.kind = .eof) : r.blocking = [] := by
  cases blocking : r.blocking with
  | nil => rfl
  | cons f others =>
    obtain viable | ⟨notLast, -⟩ := first_error_behind h whole blocking
    · rw [ht] at viable
      exact absurd viable (not_viable_end _)
    · exact absurd ht notLast

theorem blocking_at_brace (h : program m (before ++ t :: rest) = .ok r)
    (inside : ∀ u ∈ before, u.kind ≠ .eof) (whole : kinds before ∈ programs)
    (ht : t.kind = .rightBrace) :
    ∃ cause others, r.blocking = Finding.at t rest cause :: others := by
  have dead := not_viable_brace whole
  rw [← ht] at dead
  cases blocking : r.blocking with
  | nil => exact absurd (viable_of_no_error h inside (by simp [ht]) blocking) dead
  | cons f others =>
    obtain ⟨-, cause, rfl⟩ := (first_error_behind h whole blocking).resolve_left dead
    exact ⟨cause, others, rfl⟩

end

theorem Passes.behind {tokens rest more : List Token} {u : Token} (h : Passes tokens (u :: rest))
    (h' : Passes tokens more) (later : beforeEnd more < beforeEnd (u :: rest)) :
    Passes rest more := by
  have total := h.beforeEnd_add
  have total' := h'.beforeEnd_add
  obtain ⟨taken, rfl, -⟩ := h
  obtain ⟨taken', split, before⟩ := h'
  obtain ⟨next, -, rfl⟩ | ⟨next, rfl, rfl⟩ := append_eq_append_cons split
  · simp only [List.length_append] at total total'
    omega
  · exact ⟨next, rfl, fun t mem => before t (by simp [mem])⟩

theorem Passes.mem {tokens beyond rest : List Token} {t last : Token}
    (h : Passes (tokens ++ last :: beyond) (t :: rest)) (hl : last.kind = .eof)
    (ht : t.kind ≠ .eof) :
    t ∈ tokens := by
  obtain ⟨taken, split, before⟩ := h
  obtain ⟨next, rfl⟩ | ⟨-, rfl, -⟩ | ⟨next, rfl⟩ := append_cons_eq_append_cons split
  · simp
  · exact absurd hl ht
  · exact absurd hl (before last (by simp))

section
variable {m : Nat} {beyond : List Token} {last : Token} {r : Reading}

theorem Reading.Stray.errors_eq_nil {after : List Token} (h : r.Stray (after ++ last :: beyond))
    (read : program m (after ++ last :: beyond) = .ok r) (hl : last.kind = .eof)
    (whole : kinds after ∈ programs) : r.errors = [] := by
  rw [Reading.errors, ← h.blocking, blocking_eq_nil read whole hl]
  rfl

theorem Reading.Stray.errors_eq_cons {below rest : List Token} {closing : Token}
    (h : r.Stray (below ++ closing :: (rest ++ last :: beyond)))
    (read : program m (below ++ closing :: (rest ++ last :: beyond)) = .ok r)
    (hl : last.kind = .eof) (inside : ∀ t ∈ below, t.kind ≠ .eof) (hc : closing.kind = .rightBrace)
    (whole : kinds below ∈ programs) :
    ∃ others, r.errors = GrammarError.at closing .expectedExpression :: others ∧
      ∀ x ∈ others, ∃ t ∈ rest, (t.kind = .rightBrace ∨ t.kind = .kwElse) ∧
        x = GrammarError.at t .expectedExpression := by
  obtain ⟨cause, others, first⟩ := blocking_at_brace read inside whole hc
  have falling := (program_progress read).falling
  rw [first, List.map_cons, List.pairwise_cons] at falling
  rw [h.blocking] at first
  rw [Reading.Stray, first, List.forall_mem_cons] at h
  obtain ⟨⟨t, more, -, -, same⟩, later⟩ := h
  obtain rfl : cause = .expectedExpression := congrArg (fun f => f.error.cause) same
  refine ⟨others.map Finding.error, by rw [Reading.errors, first]; rfl, fun x mem => ?_⟩
  obtain ⟨f, found, rfl⟩ := List.mem_map.1 mem
  have behind := falling.1 f.left (List.mem_map_of_mem found)
  obtain ⟨t, more, passes, ht, rfl⟩ := later f found
  have left : Passes (rest ++ last :: beyond) (t :: more) :=
    Passes.behind ⟨below, rfl, inside⟩ passes behind
  refine ⟨t, left.mem hl ?_, ht, rfl⟩
  rcases ht with ht | ht <;> simp [ht]

end

-- ---------------------------------------------------------------------------
-- A missing expression
-- ---------------------------------------------------------------------------

theorem left_unique {taken taken' left left' : List Token} {s s' : Token}
    (h : taken ++ s :: left = taken' ++ s' :: left') (ht : ∀ t ∈ taken, t.kind ≠ .semicolon)
    (ht' : ∀ t ∈ taken', t.kind ≠ .semicolon) (hs : s.kind = .semicolon)
    (hs' : s'.kind = .semicolon) : left = left' := by
  obtain ⟨next, rfl⟩ | ⟨-, -, same⟩ | ⟨next, rfl⟩ := append_cons_eq_append_cons h
  · exact absurd hs' (ht s' (by simp))
  · exact same
  · exact absurd hs (ht' s (by simp))

/-- If the expression of a `print` is missing from a program without errors, there is an error at
the semicolon. It is the only one if the `print` stands at top level, with declarations up to the
end behind it. If it stands in a block, with declarations up to a closing brace behind it, the
second error is at that brace, and all others are at braces and `else` behind that one. -/
theorem missing_expression_reports {before e after beyond : List Token} {p semicolon last : Token}
    {r : Reading} (hp : p.kind = .kwPrint) (he : kinds e ∈ (Form.part .expression).language)
    (hs : semicolon.kind = .semicolon) (hl : last.kind = .eof)
    (inside : ∀ t ∈ before ++ after, t.kind ≠ .eof)
    (h : parse (before ++ p :: (e ++ semicolon :: (after ++ last :: beyond))) = .ok r)
    (clean : r.errors = []) :
    ∃ r', parse (before ++ p :: semicolon :: (after ++ last :: beyond)) = .ok r' ∧
      (kinds after ∈ programs → r'.errors = [GrammarError.at semicolon .expectedExpression]) ∧
      ∀ below closing rest, after = below ++ closing :: rest → closing.kind = .rightBrace →
        kinds below ∈ programs →
        ∃ others, r'.errors = GrammarError.at semicolon .expectedExpression ::
            GrammarError.at closing .expectedExpression :: others ∧
          ∀ x ∈ others, ∃ t ∈ rest, (t.kind = .rightBrace ∨ t.kind = .kwElse) ∧
            x = GrammarError.at t .expectedExpression := by
  rw [List.forall_mem_append] at inside
  obtain ⟨⟨taken, s, left, split, unclosed, closed, tail⟩, again⟩ :=
    program_stumbles h (List.map_eq_nil_iff.1 clean) hp inside.1
  have unclosed' : ∀ t ∈ e, t.kind ≠ .semicolon := fun t mem =>
    ne_semicolon_of_passable (passable_of_expression he t.kind (List.mem_map_of_mem mem))
  obtain rfl := left_unique split unclosed' unclosed hs closed
  obtain ⟨r₂, read, stray⟩ := program_tail tail (m := steps (after ++ last :: beyond).length)
    (by unfold steps; omega)
  obtain ⟨r', read', findings⟩ := again semicolon _ r₂ hs read (by
    simp only [steps, List.length_append, List.length_cons]
    omega)
  rw [program_eq_parse (by simp only [steps, List.length_append, List.length_cons]; omega)] at read'
  have errors : r'.errors = GrammarError.at semicolon .expectedExpression :: r₂.errors := by
    rw [Reading.errors, findings]
    rfl
  refine ⟨r', read', fun whole => ?_, ?_⟩
  · rw [errors, stray.errors_eq_nil read hl whole]
  · rintro below closing rest rfl hc whole
    rw [List.append_assoc, List.cons_append] at read stray
    obtain ⟨others, first, later⟩ := stray.errors_eq_cons read hl
      (fun t mem => inside.2 t (List.mem_append_left _ mem)) hc whole
    exact ⟨others, by rw [errors, first], later⟩

theorem derives_operation (levels : List Level) : Derives (.part (.operation levels)) [.kwNil] := by
  have primary : Derives (.part .primary) [.kwNil] := .part (.one (.token (by decide)))
  have call : Derives (.part .call) [.kwNil] := .part (.both primary (.both .none .empty))
  induction levels with
  | nil => exact .part (.part (.other call))
  | cons level tighter ih => exact .part (.both ih (.both .none .empty))

theorem derives_expression : Derives (.part .expression) [.kwNil] := by
  have unassigned : Derives (Form.optional (.sequence [.token .equal, .part .expression])) [] :=
    .other .empty
  exact .part (.both (derives_operation Level.all) (.both unassigned .empty))

def printBlock (e : List Token) : List Token :=
  [⟨.leftBrace, "\x7b", none, 1⟩] ++ ⟨.kwPrint, "print", none, 1⟩ ::
    (e ++ ⟨.semicolon, ";", none, 1⟩ :: ([⟨.rightBrace, "\x7d", none, 1⟩] ++ [Token.atEnd 1]))

/-- Without its expression the `print` leaves an error at the closing brace too. -/
theorem missing_expression_reports_block :
    ∃ r, parse (printBlock []) = .ok r ∧
      r.errors = [GrammarError.at ⟨.semicolon, ";", none, 1⟩ .expectedExpression,
        GrammarError.at ⟨.rightBrace, "\x7d", none, 1⟩ .expectedExpression] := by
  have read : parse (printBlock [⟨.kwNil, "nil", none, 1⟩]) = .ok _ := rfl
  obtain ⟨r, reread, -, braced⟩ := missing_expression_reports (e := [⟨.kwNil, "nil", none, 1⟩])
    rfl derives_expression rfl rfl (by decide) read rfl
  obtain ⟨others, errors, behind⟩ := braced [] _ [] rfl rfl Derives.none
  obtain rfl : others = [] := by
    refine List.eq_nil_iff_forall_not_mem.2 fun x mem => ?_
    obtain ⟨t, none, -⟩ := behind x mem
    cases none
  exact ⟨r, reread, errors⟩

/-- One mistake in a block is more than one error. -/
theorem missing_expression_not_alone :
    (∃ r, parse (printBlock [⟨.kwNil, "nil", none, 1⟩]) = .ok r ∧ r.errors = []) ∧
      ¬ ∃ r, parse (printBlock []) = .ok r ∧
        r.errors = [GrammarError.at ⟨.semicolon, ";", none, 1⟩ .expectedExpression] := by
  refine ⟨⟨_, rfl, rfl⟩, ?_⟩
  rintro ⟨r, read, errors⟩
  have concrete : parse (printBlock []) = .ok _ := rfl
  obtain rfl := Except.ok.inj (read.symm.trans concrete)
  cases errors

end Lox.Grammar
