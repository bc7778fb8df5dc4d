import Lox.Proofs.Grammar.Locality
import Lox.Proofs.Grammar.Placement

/-!
# Programs read one behind the other

The tokens of a program can stand before those of another: what is read is the statements of the one
and then those of the other, and so it is with the errors. Two things could reach over the seam. One
is an `else`, and no program without errors starts with one. The other is the search for the next
statement behind an error, and a semicolon at the end of the first program stops it.
-/

namespace Lox.Grammar

variable {α β : Type}

-- ---------------------------------------------------------------------------
-- No statement starts with `else`
-- ---------------------------------------------------------------------------

/-- A rule that reads nothing where an `else` stands. -/
def Rule.RefusesElse (x : Rule α) : Prop :=
  ∀ t tokens value rest findings, t.kind = .kwElse → x (t :: tokens) ≠ .read value rest findings

theorem Rule.RefusesElse.bind {x : Rule α} (hx : x.RefusesElse) (f : α → Rule β) :
    (x >>= f).RefusesElse := by
  intro t tokens value rest findings ht
  rw [Rule.bind_apply]
  cases hr : x (t :: tokens) with
  | read a middle noted => exact absurd hr (hx t tokens a middle noted ht)
  | stuck | broken => exact fun h => nomatch h

open Rule (RefusesElse)

theorem refusesElse_primary (n : Nat) : (primary n).RefusesElse := by
  intro t tokens value rest findings ht
  cases n with
  | zero => exact fun h => nomatch h
  | succ n =>
    rw [primary, Rule.peek_bind, ht]
    exact fun h => nomatch h

theorem refusesElse_unary (n : Nat) : (unary n).RefusesElse := by
  intro t tokens value rest findings ht
  cases n with
  | zero => exact fun h => nomatch h
  | succ n =>
    rw [unary, Rule.peek_bind, ht]
    exact (refusesElse_primary n).bind _ t tokens value rest findings ht

theorem refusesElse_operation (n : Nat) (levels : List Level) :
    (operation n levels).RefusesElse := by
  induction levels generalizing n with
  | nil =>
    cases n with
    | zero => exact fun _ _ _ _ _ _ h => nomatch h
    | succ n => exact refusesElse_unary n
  | cons level tighter ih =>
    cases n with
    | zero => exact fun _ _ _ _ _ _ h => nomatch h
    | succ n => exact (ih n).bind _

theorem refusesElse_expressionStatement (n : Nat) : (expressionStatement n).RefusesElse := by
  refine RefusesElse.bind ?_ _
  cases n with
  | zero => exact fun _ _ _ _ _ _ h => nomatch h
  | succ n => exact (refusesElse_operation n _).bind _

theorem refusesElse_declaration (n : Nat) : (declaration n).RefusesElse := by
  intro t tokens value rest findings ht
  cases n with
  | zero => exact fun h => nomatch h
  | succ n =>
    rw [declaration, Rule.peek_bind, ht]
    cases n with
    | zero => exact fun h => nomatch h
    | succ n =>
      refine fun h => refusesElse_expressionStatement n t tokens value rest findings ht ?_
      rw [← h]
      simp [statement, Rule.peek_bind, ht]

-- ---------------------------------------------------------------------------
-- Programs
-- ---------------------------------------------------------------------------

theorem program_first {n : Nat} {tokens : List Token} {r : Reading}
    (h : program n tokens = .ok r) (hf : r.findings = []) :
    ∃ t rest, tokens = t :: rest ∧ t.kind ≠ .kwElse := by
  cases n with
  | zero => cases h
  | succ n =>
    cases tokens with
    | nil => cases h
    | cons t rest =>
      refine ⟨t, rest, rfl, fun he => ?_⟩
      obtain ⟨s, after, found, _, first, -⟩ | ⟨stop, found, _, r', first, -, -, rfl⟩ :=
        program_cases h (by simp [he])
      · exact refusesElse_declaration n t rest s after found he first
      · have blocked := spends_declaration n (t :: rest)
        rw [first] at blocked
        exact blocked.ne_nil (List.append_eq_nil_iff.1 hf).1

theorem append_singleton_of_ne_nil {tokens taken after : List Token} {last : Token}
    (nonempty : after ≠ []) (split : tokens ++ [last] = taken ++ after) :
    ∃ left, after = left ++ [last] ∧ tokens = taken ++ left := by
  rcases List.append_eq_append_iff.1 split with ⟨left, ht, hl⟩ | ⟨left, hl, ha⟩
  · cases left with
    | nil => exact ⟨[], by simpa using hl.symm, by simpa using ht.symm⟩
    | cons t left =>
      have none : left = [] ∧ after = [] := by simpa using (List.cons.inj hl).2
      exact absurd none.2 nonempty
  · exact ⟨left, ha, hl⟩

theorem append_singleton_of_program {n : Nat} {tokens taken after : List Token} {last : Token}
    {r : Reading} (h : program n after = .ok r) (split : tokens ++ [last] = taken ++ after) :
    ∃ left, after = left ++ [last] ∧ tokens = taken ++ left := by
  refine append_singleton_of_ne_nil ?_ split
  rintro rfl
  cases n <;> cases h

theorem program_atEnd {n : Nat} {last : Token} {rest : List Token} {r : Reading}
    (h : program n (last :: rest) = .ok r) (hl : last.kind = .eof) : r = Reading.empty := by
  cases n with
  | zero => cases h
  | succ n =>
    rw [program, if_pos hl] at h
    cases h
    rfl

theorem follow_of_end {last : Token} (hl : last.kind = .eof) {following : List Token}
    (hy : ∃ t rest, following = t :: rest ∧ t.kind ≠ .kwElse) :
    Follow ElseAlike [last] following := by
  obtain ⟨t, rest, rfl, ht⟩ := hy
  exact .intro ⟨fun he => (nomatch hl.symm.trans he), fun he => absurd he ht⟩

/-- The kind of the last token, or the kind before if there is none. -/
def lastKind (previous : Kind) : List Token → Kind
  | [] => previous
  | t :: rest => lastKind t.kind rest

theorem lastKind_eq_of_getLast? {tokens : List Token} {t : Token} (h : tokens.getLast? = some t)
    (previous : Kind) : lastKind previous tokens = t.kind := by
  induction tokens generalizing previous with
  | nil => cases h
  | cons u rest ih =>
    cases rest with
    | nil =>
      cases h
      rfl
    | cons v rest => exact ih (by simpa using h) u.kind

theorem lastKind_append {taken left : List Token} (nonempty : left ≠ []) (previous other : Kind) :
    lastKind previous (taken ++ left) = lastKind other left := by
  induction taken generalizing previous with
  | nil =>
    obtain ⟨u, left, rfl⟩ := List.exists_cons_of_ne_nil nonempty
    rfl
  | cons t taken ih => exact ih t.kind

/-- Skipping stops at the latest behind a semicolon that stands last. -/
theorem skip_replaced {g : Nat → Nat} {last : Token} {following : List Token} (hy : following ≠ [])
    {previous : Kind} {left after : List Token} (ht : ∀ t ∈ left, t.kind ≠ .eof)
    (closed : lastKind previous left = .semicolon)
    (h : skip previous (left ++ [last]) = .ok after) :
    ∃ left', after = left' ++ [last] ∧ left' <:+ left ∧
      skip previous (left.map (Token.relabel g) ++ following) =
        .ok (left'.map (Token.relabel g) ++ following) := by
  induction left generalizing previous with
  | nil =>
    obtain rfl : previous = .semicolon := closed
    obtain ⟨t, rest, rfl⟩ := List.exists_cons_of_ne_nil hy
    refine ⟨[], ?_, List.suffix_refl _, by simp [skip]⟩
    simpa [skip] using h.symm
  | cons u left ih =>
    rw [List.cons_append, skip] at h
    rw [List.map_cons, List.cons_append, skip, Token.kind_relabel]
    split at h
    · next stops =>
      cases h
      exact ⟨u :: left, rfl, List.suffix_refl _, by rw [if_pos stops]; rfl⟩
    · next stops =>
      rw [if_neg stops]
      obtain ⟨left', same, suffix, again⟩ :=
        ih (fun t h => ht t (List.mem_cons_of_mem _ h)) closed h
      exact ⟨left', same, suffix.trans (List.suffix_cons u left), again⟩

theorem synchronize_replaced {g : Nat → Nat} {last : Token} {following : List Token}
    (hy : following ≠ []) {left after : List Token} (nonempty : left ≠ [])
    (ht : ∀ t ∈ left, t.kind ≠ .eof) {previous : Kind}
    (closed : lastKind previous left = .semicolon) (h : synchronize (left ++ [last]) = .ok after) :
    ∃ dropped left', dropped ≠ [] ∧ left = dropped ++ left' ∧ after = left' ++ [last] ∧
      synchronize (left.map (Token.relabel g) ++ following) =
        .ok (left'.map (Token.relabel g) ++ following) := by
  obtain ⟨u, left, rfl⟩ := List.exists_cons_of_ne_nil nonempty
  have notLast : u.kind ≠ .eof := ht u (List.mem_cons_self ..)
  rw [List.cons_append, synchronize, if_neg notLast] at h
  rw [List.map_cons, List.cons_append, synchronize, Token.kind_relabel, if_neg notLast]
  obtain ⟨left', same, ⟨dropped, rfl⟩, again⟩ :=
    skip_replaced hy (fun t h => ht t (List.mem_cons_of_mem _ h)) closed h
  exact ⟨u :: dropped, left', List.cons_ne_nil _ _, rfl, same, again⟩

theorem Blocked.atEnd {tokens : List Token} {last : Token} {findings : List Finding}
    (h : Blocked tokens [last] findings) (hl : last.kind = .eof) :
    ∃ f ∈ findings, f.error.place = .atEnd := by
  obtain ⟨noted, t, more, cause, here, rfl, -⟩ := h.last
  cases here
  exact ⟨_, List.mem_append_right _ (List.mem_singleton_self _), if_pos hl⟩

section
variable {g : Nat → Nat} {last : Token} {following tokens : List Token} {n n' : Nat}

/-- A declaration, read or given up, is so too if other tokens follow the program; the rest of the
program comes behind it as before. -/
theorem program_step_replaced {t : Token} {r : Reading} (hl : last.kind = .eof)
    (hy : ∃ u rest, following = u :: rest ∧ u.kind ≠ .kwElse) (hn : n ≤ n')
    (ht : ∀ u ∈ t :: tokens, u.kind ≠ .eof) (h : program (n + 1) (t :: tokens ++ [last]) = .ok r)
    (hf : ∀ f ∈ r.findings, f.error.place ≠ .atEnd)
    (hs : r.findings = [] ∨ lastKind .eof (t :: tokens) = .semicolon) :
    ∃ s taken left found found' r₁, t :: tokens = taken ++ left ∧ taken ≠ [] ∧
      program n (left ++ [last]) = .ok r₁ ∧ r = r₁.cons s found ∧ SameErrors g found found' ∧
      ∀ r₂, program n' (left.map (Token.relabel g) ++ following) = .ok r₂ →
        program (n' + 1) ((t :: tokens).map (Token.relabel g) ++ following) =
          .ok (r₂.cons (s.map (Stmt.relabel g)) found') := by
  have htk : t.kind ≠ .eof := ht t (List.mem_cons_self ..)
  have notLast : (t.relabel g).kind ≠ .eof := htk
  have same {taken left : List Token} (here : t :: tokens = taken ++ left) :
      taken.map (Token.relabel g) ++ (left.map (Token.relabel g) ++ following) =
        t.relabel g :: (tokens.map (Token.relabel g) ++ following) := by
    rw [← List.append_assoc, ← List.map_append, ← here]
    rfl
  rw [List.cons_append] at h
  have alike := local_declaration (g := g) hn (t :: (tokens ++ [last]))
  unfold Rule.LocalAt at alike
  obtain ⟨s, after, found, r₁, hd, more, rfl⟩ | ⟨stop, found, after, r₁, hd, skipped, more, rfl⟩ :=
    program_cases h htk
  · rw [hd] at alike
    obtain ⟨taken, split, nonempty, again⟩ := alike
    obtain ⟨left, rfl, here⟩ := append_singleton_of_program more ((List.cons_append ..).trans split)
    have follow : Follow ElseAlike (left ++ [last]) (left.map (Token.relabel g) ++ following) :=
      .append_of_follow (elseAlike_relabel g) left (follow_of_end hl hy)
    obtain ⟨found', sameErrors, first⟩ := again _ follow
    rw [same here] at first
    exact ⟨some s, taken, left, found, found', r₁, here, nonempty rfl, more, rfl, sameErrors,
      fun r₂ rest => program_of_read notLast first rest⟩
  · have blocked := spends_declaration n (t :: (tokens ++ [last]))
    rw [hd] at blocked alike
    obtain ⟨taken, split, again⟩ := alike
    obtain ⟨left, rfl, here⟩ :=
      append_singleton_of_ne_nil blocked.rest_ne_nil ((List.cons_append ..).trans split)
    have nonempty : left ≠ [] := by
      rintro rfl
      obtain ⟨f, mem, atEnd⟩ := blocked.atEnd hl
      exact hf f (List.mem_append_left _ mem) atEnd
    -- There is an error, so a semicolon stands last, and skipping does not get past it.
    have closed : lastKind .eof left = .semicolon := by
      rcases hs with none | semicolon
      · exact absurd (List.append_eq_nil_iff.1 none).1 blocked.ne_nil
      · rwa [here, lastKind_append nonempty _ .eof] at semicolon
    have within : ∀ u ∈ left, u.kind ≠ .eof := fun u hu =>
      ht u (here ▸ List.mem_append_right taken hu)
    obtain ⟨u, rest, rfl, -⟩ := hy
    obtain ⟨dropped, left', gone, rfl, rfl, skipped'⟩ :=
      synchronize_replaced (g := g) (List.cons_ne_nil u rest) nonempty within closed skipped
    obtain ⟨found', sameErrors, first⟩ := again _ (.append (moved_relabel g) nonempty _ _)
    rw [same here] at first
    exact ⟨none, taken ++ dropped, left', found, found', r₁, here.trans (List.append_assoc ..).symm,
      List.append_ne_nil_of_right_ne_nil taken gone, more, rfl, sameErrors,
      fun r₂ rest => program_of_stuck notLast first skipped' rest⟩

theorem program_replaced {r r' : Reading} (hl : last.kind = .eof)
    (hy : ∃ t rest, following = t :: rest ∧ t.kind ≠ .kwElse) (hn : n ≤ n')
    (h : program n (tokens ++ [last]) = .ok r) (hf : ∀ f ∈ r.findings, f.error.place ≠ .atEnd)
    (hs : r.findings = [] ∨ lastKind .eof tokens = .semicolon) (ht : ∀ t ∈ tokens, t.kind ≠ .eof)
    (hr : ∀ m, n' ≤ m + tokens.length → program m following = .ok r') :
    ∃ findings, SameErrors g r.findings findings ∧
      program n' (tokens.map (Token.relabel g) ++ following) =
        .ok { statements := Stmt.relabelList g r.statements ++ r'.statements
              findings := findings ++ r'.findings } := by
  induction n generalizing n' tokens r with
  | zero => cases h
  | succ n ih =>
    obtain ⟨n', rfl⟩ : ∃ k, n' = k + 1 := Nat.exists_eq_succ_of_ne_zero (Nat.ne_zero_of_lt hn)
    have hn := Nat.le_of_succ_le_succ hn
    cases tokens with
    | nil =>
      rw [List.nil_append, program, if_pos hl] at h
      cases h
      exact ⟨[], .nil g, hr _ (Nat.le_refl _)⟩
    | cons t tokens =>
      obtain ⟨s, taken, left, found, found', r₁, here, nonempty, more, rfl, sameFirst, step⟩ :=
        program_step_replaced (g := g) hl hy hn ht h hf hs
      have closed : r₁.findings = [] ∨ lastKind .eof left = .semicolon := by
        by_cases hleft : left = []
        · subst hleft
          obtain rfl := program_atEnd more hl
          exact .inl rfl
        · rw [here, lastKind_append hleft _ .eof] at hs
          exact hs.imp_left fun none => (List.append_eq_nil_iff.1 none).2
      have shorter : left.length + 1 ≤ (t :: tokens).length := by
        have some_taken := List.length_pos_iff.2 nonempty
        rw [here, List.length_append]
        omega
      obtain ⟨findings, sameRest, rest⟩ := ih hn more
        (fun f mem => hf f (List.mem_append_right _ mem)) closed
        (fun u hu => ht u (here ▸ List.mem_append_right taken hu)) (fun m hm => hr m (by omega))
      refine ⟨found' ++ findings, sameFirst.append sameRest, (step _ rest).trans ?_⟩
      cases s <;> simp [Reading.cons, Stmt.relabelList]

end

theorem program_replaced_clean {g : Nat → Nat} {last : Token} (hl : last.kind = .eof)
    {following : List Token} (hy : ∃ t rest, following = t :: rest ∧ t.kind ≠ .kwElse)
    {r' : Reading} {n n' : Nat} {tokens : List Token} {r : Reading} (hn : n ≤ n')
    (h : program n (tokens ++ [last]) = .ok r) (hf : r.findings = [])
    (ht : ∀ t ∈ tokens, t.kind ≠ .eof)
    (hr : ∀ m, n' ≤ m + tokens.length → program m following = .ok r') :
    program n' (tokens.map (Token.relabel g) ++ following) =
      .ok { r' with statements := Stmt.relabelList g r.statements ++ r'.statements } := by
  obtain ⟨findings, same, joined⟩ :=
    program_replaced (g := g) hl hy hn h (by simp [hf]) (.inl hf) ht hr
  rw [hf] at same
  rw [joined, same.eq_nil, List.nil_append]

theorem program_relabelled {g : Nat → Nat} {tokens : List Token} {last : Token} {r : Reading}
    (h : parse (tokens ++ [last]) = .ok r) (hf : r.findings = []) (hl : last.kind = .eof)
    (ht : ∀ t ∈ tokens, t.kind ≠ .eof) {n : Nat} (hn : steps (tokens.length + 1) ≤ n) :
    program n ((tokens ++ [last]).map (Token.relabel g)) =
      .ok { statements := Stmt.relabelList g r.statements, findings := [] } := by
  unfold steps at hn
  have first : ∃ t rest, [last.relabel g] = t :: rest ∧ t.kind ≠ .kwElse :=
    ⟨_, _, rfl, fun he => nomatch hl.symm.trans he⟩
  have ends : ∀ m, n ≤ m + tokens.length → program m [last.relabel g] = .ok Reading.empty := by
    intro m hm
    obtain ⟨m, rfl⟩ : ∃ k, m = k + 1 := Nat.exists_eq_succ_of_ne_zero (by omega)
    rw [program, if_pos (by exact hl)]
  rw [List.map_append]
  refine (program_replaced_clean hl first ?_ h hf ht ends).trans ?_
  · simpa [steps] using hn
  · simp [Reading.empty]

/-- Two programs without errors, one behind the other and the second on later lines. -/
theorem parse_joined {g : Nat → Nat} {tokens tokens' : List Token} {last last' : Token}
    {r r' : Reading} (hl : last.kind = .eof) (hl' : last'.kind = .eof)
    (ht : ∀ t ∈ tokens, t.kind ≠ .eof) (ht' : ∀ t ∈ tokens', t.kind ≠ .eof)
    (h : parse (tokens ++ [last]) = .ok r) (hf : r.findings = [])
    (h' : parse (tokens' ++ [last']) = .ok r') (hf' : r'.findings = []) :
    parse (tokens ++ (tokens' ++ [last']).map (Token.relabel g)) =
      .ok { statements := Stmt.relabelList id r.statements ++ Stmt.relabelList g r'.statements
            findings := [] } := by
  have second : ∀ m, steps (tokens'.length + 1) ≤ m → _ :=
    fun m hm => program_relabelled (g := g) h' hf' hl' ht' hm
  have joined : program (steps (tokens.length + (tokens'.length + 1)))
        (tokens.map (Token.relabel id) ++ (tokens' ++ [last']).map (Token.relabel g)) =
      .ok ⟨Stmt.relabelList id r.statements ++ Stmt.relabelList g r'.statements, []⟩ := by
    have ends : ∀ m, steps (tokens.length + (tokens'.length + 1)) ≤ m + tokens.length →
        program m ((tokens' ++ [last']).map (Token.relabel g)) =
          .ok ⟨Stmt.relabelList g r'.statements, []⟩ := by
      intro m hm
      refine second m ?_
      unfold steps at hm ⊢
      omega
    refine program_replaced_clean hl (program_first (second _ (Nat.le_refl _)) rfl) ?_ h hf ht ends
    rw [List.length_append]
    unfold steps
    exact Nat.mul_le_mul_left 20 (by simp)
  rw [Token.map_relabel_id] at joined
  unfold parse
  rw [List.length_append, List.length_map, List.length_append]
  exact joined

end Lox.Grammar
