import Lox.Proofs.Grammar.Joining
import Lox.Proofs.Grammar.Safety

/-!
# Reading on after errors

Reading a program goes round once for each statement and each error that blocks, and every time it
takes a token at least. So the errors stand one behind the other, and there are not more of them
than tokens (`parse_makes_progress`). What follows a semicolon or a program without errors is read
as if it stood alone, whatever was found before (`parse_parts_independent`).
-/

namespace Lox.Grammar

/-- The number of tokens before the one at which an error was found. -/
def Finding.position (tokens : List Token) (f : Finding) : Nat :=
  beforeEnd tokens - f.left

/-- The errors at which reading could not go on. -/
def Reading.blocking (r : Reading) : List Finding :=
  r.findings.filter Finding.blocks

/-- Each statement and each error that blocks has used up a token of its own before the end
token. -/
structure Progress (tokens : List Token) (r : Reading) : Prop where
  ended : Ended tokens
  found : ∀ f ∈ r.blocking, ∃ t rest cause, Passes tokens (t :: rest) ∧ f = Finding.at t rest cause
  falling : (r.blocking.map Finding.left).Pairwise (· > ·)
  paid : r.statements.length + r.blocking.length ≤ beforeEnd tokens

theorem Passes.beforeEnd_add {tokens rest : List Token} (h : Passes tokens rest) :
    beforeEnd tokens + rest.length = beforeEnd rest + tokens.length := by
  obtain ⟨taken, rfl, before⟩ := h
  rw [beforeEnd_passed before, List.length_append]
  omega

theorem Passes.beforeEnd_le {tokens rest : List Token} (h : Passes tokens rest) :
    beforeEnd rest ≤ beforeEnd tokens := by
  have total := h.beforeEnd_add
  have fewer := h.length_le
  omega

theorem blocking_cons_of_spent {least : Nat} {tokens rest : List Token} {found : List Finding}
    (h : Spent least tokens rest found) (s : Option Stmt) (r : Reading) :
    (r.cons s found).blocking = r.blocking := by
  have none : found.filter Finding.blocks = [] := by simpa using h.harmless
  rw [Reading.blocking, Reading.cons, List.filter_append, none, List.nil_append]
  rfl

theorem blocking_cons_of_blocked {tokens stop : List Token} {found : List Finding}
    (h : Blocked tokens stop found) (r : Reading) :
    ∃ t rest cause, stop = t :: rest ∧
      (r.cons none found).blocking = Finding.at t rest cause :: r.blocking := by
  obtain ⟨noted, t, rest, cause, here, rfl, blocks, harmless⟩ := h.last
  have none : noted.filter Finding.blocks = [] := by simpa using harmless
  refine ⟨t, rest, cause, here, ?_⟩
  simp [Reading.blocking, Reading.cons, List.filter_append, none, blocks]

theorem Progress.read {tokens after : List Token} {found : List Finding} {r : Reading}
    (h : Progress after r) (spent : Spent 1 tokens after found) (s : Stmt) :
    Progress tokens (r.cons (some s) found) where
  ended := spent.passes.ended.1 h.ended
  found := by
    rw [blocking_cons_of_spent spent]
    intro f mem
    obtain ⟨t, rest, cause, passes, rfl⟩ := h.found f mem
    exact ⟨t, rest, cause, spent.passes.trans passes, rfl⟩
  falling := by
    rw [blocking_cons_of_spent spent]
    exact h.falling
  paid := by
    have paid := h.paid
    have total := spent.passes.beforeEnd_add
    have least := spent.least
    rw [blocking_cons_of_spent spent]
    simp only [Reading.cons, Option.toList_some, List.length_append, List.length_singleton]
    omega

theorem progress_atEnd {t : Token} (ht : t.kind = .eof) (rest : List Token) :
    Progress (t :: rest) Reading.empty where
  ended := ⟨t, List.mem_cons_self .., ht⟩
  found := by simp [Reading.blocking, Reading.empty]
  falling := by simp [Reading.blocking, Reading.empty]
  paid := by simp [Reading.blocking, Reading.empty]

theorem Progress.stuck {n : Nat} {t : Token} {tokens stop after : List Token} {found : List Finding}
    {r : Reading} (h : Progress after r) (ht : t.kind ≠ .eof)
    (blocked : Blocked (t :: tokens) stop found) (skipped : synchronize stop = .ok after)
    (rest : program n after = .ok r) : Progress (t :: tokens) (r.cons none found) := by
  obtain ⟨passes, shorter⟩ := synchronize_shorter ht blocked skipped
  obtain ⟨u, more, cause, rfl, blocking⟩ := blocking_cons_of_blocked blocked r
  -- What is found later is found behind the place where reading was stuck.
  have later : ∀ f ∈ r.blocking, f.left < beforeEnd (u :: more) := by
    obtain ⟨hu, rfl⟩ | ⟨hu, behind⟩ := synchronize_passes skipped
    · obtain rfl := program_atEnd rest hu
      simp [Reading.blocking, Reading.empty]
    · intro f mem
      obtain ⟨v, others, cause, below, rfl⟩ := h.found f mem
      have total := (Passes.cons hu behind).beforeEnd_add
      have within := below.beforeEnd_le
      have fewer := behind.length_le
      rw [List.length_cons] at total
      rw [Finding.at_left]
      omega
  refine ⟨passes.ended.1 h.ended, ?_, ?_, ?_⟩
  · rw [blocking]
    rintro f (_ | ⟨_, mem⟩)
    · exact ⟨u, more, cause, blocked.passes, rfl⟩
    · obtain ⟨v, others, cause, below, rfl⟩ := h.found f mem
      exact ⟨v, others, cause, passes.trans below, rfl⟩
  · rw [blocking, List.map_cons, List.pairwise_cons]
    exact ⟨by simpa using later, h.falling⟩
  · have paid := h.paid
    have total := passes.beforeEnd_add
    rw [blocking, List.length_cons]
    simp only [Reading.cons, Option.toList_none, List.nil_append]
    omega

theorem program_progress {n : Nat} {tokens : List Token} {r : Reading}
    (h : program n tokens = .ok r) : Progress tokens r := by
  induction n generalizing tokens r with
  | zero => cases h
  | succ n ih =>
    cases tokens with
    | nil => cases h
    | cons t tokens =>
      by_cases ht : t.kind = .eof
      · rw [program, if_pos ht] at h
        cases h
        exact progress_atEnd ht tokens
      have accounts := spends_declaration n (t :: tokens)
      obtain ⟨s, after, found, r, read, rest, rfl⟩ | ⟨stop, found, after, r, stuck, skipped,
        rest, rfl⟩ :=
        program_cases h ht
      · rw [read] at accounts
        exact (ih rest).read accounts s
      · rw [stuck] at accounts
        exact (ih rest).stuck ht accounts skipped rest

theorem Finding.position_at {before : List Token} (inside : ∀ u ∈ before, u.kind ≠ .eof) (t : Token)
    (rest : List Token) (cause : GrammarCause) :
    (Finding.at t rest cause).position (before ++ t :: rest) = before.length := by
  rw [Finding.position, beforeEnd_passed inside]
  exact Nat.add_sub_cancel _ _

section
variable {tokens : List Token} {r : Reading}

theorem Progress.at_position (h : Progress tokens r) {f : Finding} (hf : f ∈ r.blocking) :
    ∃ t cause, tokens[f.position tokens]? = some t ∧ f.error = GrammarError.at t cause := by
  obtain ⟨t, rest, cause, ⟨taken, rfl, before⟩, rfl⟩ := h.found f hf
  exact ⟨t, cause, by simp [Finding.position_at before], rfl⟩

theorem Progress.rising (h : Progress tokens r) :
    (r.blocking.map (Finding.position tokens)).Pairwise (· < ·) := by
  have within : ∀ f ∈ r.blocking, f.left ≤ beforeEnd tokens := by
    intro f mem
    obtain ⟨t, rest, cause, passes, rfl⟩ := h.found f mem
    exact passes.beforeEnd_le
  rw [List.pairwise_map]
  refine (List.pairwise_map.1 h.falling).imp_of_mem fun {f g} mem _ falls => ?_
  have := within f mem
  unfold Finding.position
  omega

end

theorem wellEnded_upToEnd {taken : List Token} {last : Token} (hl : last.kind = .eof)
    (before : ∀ t ∈ taken, t.kind ≠ .eof) (valued : ∀ t ∈ taken, t.Valued) :
    WellEnded (taken ++ [last]) := by
  induction taken with
  | nil => exact .atEnd hl
  | cons t taken ih =>
    rw [List.forall_mem_cons] at before valued
    exact .cons before.1 valued.1.constant (ih before.2 valued.2)

/-- Reading any list of tokens ends by itself, and what it says is about the tokens up to the first
end token: without one, or with a literal that has no value before it, there is a fault; otherwise
the errors that block stand at rising positions, and each of them and each statement has used up a
token. -/
theorem parse_makes_progress (tokens : List Token) :
    (∀ n, steps tokens.length ≤ n → program n tokens = parse tokens) ∧
    parse tokens ≠ .error .outOfSteps ∧
    (¬ Ended tokens → ∃ fault, parse tokens = .error fault) ∧
    (Ended tokens → (∀ t ∈ tokens.takeWhile (·.kind ≠ .eof), t.Valued) →
      ∃ r, parse tokens = .ok r) ∧
    (∀ before last after after', tokens = before ++ last :: after → last.kind = .eof →
      parse (before ++ last :: after') = parse tokens) ∧
    ∀ r, parse tokens = .ok r →
      (r.blocking.map (Finding.position tokens)).Pairwise (· < ·) ∧
      (∀ f ∈ r.blocking, ∃ t cause,
        tokens[f.position tokens]? = some t ∧ f.error = GrammarError.at t cause) ∧
      r.statements.length + r.blocking.length ≤ beforeEnd tokens := by
  refine ⟨fun n hn => program_eq_parse hn, ?_, ?_, ?_, ?_, ?_⟩
  · intro spent
    cases faulty_of_parse spent
  · intro notEnded
    cases hp : parse tokens with
    | error fault => exact ⟨fault, rfl⟩
    | ok r => exact absurd (program_progress hp).ended notEnded
  · intro ended valued
    obtain ⟨last, after, hl, taken, rfl, before⟩ := ended.passes
    have upToEnd : (taken ++ last :: after).takeWhile (·.kind ≠ .eof) = taken := by
      rw [List.takeWhile_append_of_pos (by simpa using before)]
      simp [hl]
    rw [upToEnd] at valued
    have sealed : Sealed (taken ++ [last]) after := .inr ⟨last, by simp, hl⟩
    obtain ⟨r, hr⟩ := parse_eq_ok (wellEnded_upToEnd hl before valued)
    exact ⟨r, by simpa using (parse_append sealed).trans hr⟩
  · rintro before last after after' rfl hl
    have same (more : List Token) : parse (before ++ last :: more) = parse (before ++ [last]) := by
      have sealed : Sealed (before ++ [last]) more := .inr ⟨last, by simp, hl⟩
      simpa using parse_append sealed
    exact (same after').trans (same after).symm
  · intro r hr
    have progress := program_progress hr
    exact ⟨progress.rising, fun f hf => progress.at_position hf, progress.paid⟩

theorem ne_nil_of_parse {tokens : List Token} {r : Reading} (h : parse tokens = .ok r) :
    tokens ≠ [] := by
  rintro rfl
  cases h

/-- Two parts of a program, the first closed by a semicolon or without errors: what is read and what
is found in them is what is read and found in each alone. -/
theorem parse_parts_independent {before after : List Token} {last : Token} {r₁ r₂ : Reading}
    (inside : ∀ t ∈ before, t.kind ≠ .eof) (hl : last.kind = .eof)
    (first : parse (before ++ [last]) = .ok r₁) (found : ∀ e ∈ r₁.errors, e.place ≠ .atEnd)
    (closed : (∃ t ∈ before.getLast?, t.kind = .semicolon) ∨ r₁.errors = [])
    (begins : ∀ t ∈ after.head?, t.kind ≠ .kwElse) (second : parse after = .ok r₂) :
    ∃ r, parse (before ++ after) = .ok r ∧ r.statements = r₁.statements ++ r₂.statements ∧
      r.errors = r₁.errors ++ r₂.errors := by
  obtain ⟨t, rest, rfl⟩ := List.exists_cons_of_ne_nil (ne_nil_of_parse second)
  have nowhere : r₁.findings = [] ∨ lastKind .eof before = .semicolon := by
    rcases closed with ⟨u, last, hu⟩ | none
    · exact .inr ((lastKind_eq_of_getLast? last .eof).trans hu)
    · exact .inl (List.map_eq_nil_iff.1 none)
  have more : steps (before ++ [last]).length ≤ steps (before ++ t :: rest).length := by
    simp only [steps, List.length_append, List.length_cons, List.length_nil]
    omega
  have again (m : Nat) (hm : steps (before ++ t :: rest).length ≤ m + before.length) :
      program m (t :: rest) = .ok r₂ := by
    rw [← second]
    refine program_eq_parse ?_
    rw [List.length_append] at hm
    unfold steps at hm ⊢
    omega
  obtain ⟨findings, same, joined⟩ := program_replaced (g := id) hl
    ⟨t, rest, rfl, begins t rfl⟩ more first (by simpa [Reading.errors] using found) nowhere
    inside again
  rw [Token.map_relabel_id, Stmt.relabelList_id] at joined
  refine ⟨_, joined, rfl, ?_⟩
  unfold Reading.errors
  rw [List.map_append, same]
  rfl

def misprint : List Token :=
  [⟨.kwPrint, "print", none, 1⟩, ⟨.semicolon, ";", none, 1⟩]

theorem parse_parts_independent_misprint :
    ∃ r e s,
      parse (misprint ++ ⟨.kwNil, "nil", none, 1⟩ :: ⟨.semicolon, ";", none, 1⟩ ::
        (misprint ++ [Token.atEnd 1])) = .ok r ∧
      r.errors = [e, e] ∧ r.statements = [s] ∧ e.cause = .expectedExpression := by
  have read : parse ((misprint ++ [⟨.kwNil, "nil", none, 1⟩, ⟨.semicolon, ";", none, 1⟩]) ++
      [Token.atEnd 1]) = .ok _ := rfl
  have again : parse (misprint ++ [Token.atEnd 1]) = .ok _ := rfl
  obtain ⟨r, joined, statements, errors⟩ := parse_parts_independent
    (by decide) rfl read (by decide) (.inl ⟨_, rfl, rfl⟩) (by decide) again
  exact ⟨r, _, _, joined, errors, statements, rfl⟩

end Lox.Grammar
