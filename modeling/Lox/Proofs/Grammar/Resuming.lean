import Lox.Proofs.Grammar.Joining
import Lox.Proofs.Grammar.Safety

/-!
# Where reading resumes

Behind an error in a declaration at top level some tokens are skipped. The one at which the error
was found is always skipped, also if it starts a statement; of those behind it none is that does
(`skip_eq_ok_iff`). So a statement behind a broken one is read as if it stood alone
(`recovery_spares_statements`), unless the error was found at its own keyword
(`recovery_swallows_statement`).
-/

namespace Lox

/-- The keywords that the declarations and statements of the grammar begin with. There are no
classes. -/
def Kind.opens : Kind → Bool
  | .kwFun | .kwVar | .kwFor | .kwIf | .kwWhile | .kwPrint | .kwReturn => true
  | _ => false

theorem Kind.startsStatement_iff {kind : Kind} :
    kind.startsStatement ↔ kind = .kwClass ∨ kind.opens := by
  cases kind <;> decide

namespace Grammar

-- ---------------------------------------------------------------------------
-- Skipping
-- ---------------------------------------------------------------------------

/-- A token, after one of the kind `previous`, before which skipping stops. -/
def Boundary (previous : Kind) (t : Token) : Prop :=
  t.kind = .eof ∨ previous = .semicolon ∨ t.kind.startsStatement

def Unbroken : Kind → List Token → Prop
  | _, [] => True
  | previous, t :: rest => ¬ Boundary previous t ∧ Unbroken t.kind rest

theorem skip_eq_ok_iff {previous : Kind} {tokens after : List Token} :
    skip previous tokens = .ok after ↔ ∃ skipped t rest, tokens = skipped ++ after ∧
      Unbroken previous skipped ∧ after = t :: rest ∧ Boundary (lastKind previous skipped) t := by
  induction tokens generalizing previous with
  | nil =>
    constructor
    · rintro ⟨⟩
    · rintro ⟨skipped, t, rest, none, -, rfl, -⟩
      simp at none
  | cons t tokens ih =>
    rw [skip]
    split
    · next stops =>
      have stops : Boundary previous t := by simpa [Boundary, or_assoc] using stops
      constructor
      · rintro ⟨⟩
        exact ⟨[], t, tokens, rfl, trivial, rfl, stops⟩
      · rintro ⟨_ | ⟨u, skipped⟩, v, rest, split, unbroken, here, -⟩
        · exact congrArg _ split
        · obtain ⟨rfl, -⟩ := List.cons.inj split
          exact absurd stops unbroken.1
    · next goesOn =>
      have goesOn : ¬ Boundary previous t := by simpa [Boundary, or_assoc] using goesOn
      rw [ih]
      constructor
      · rintro ⟨skipped, v, rest, rfl, unbroken, here, stops⟩
        exact ⟨t :: skipped, v, rest, rfl, ⟨goesOn, unbroken⟩, here, stops⟩
      · rintro ⟨_ | ⟨u, skipped⟩, v, rest, split, unbroken, rfl, stops⟩
        · obtain ⟨rfl, -⟩ := List.cons.inj split
          exact absurd stops goesOn
        · obtain ⟨rfl, rfl⟩ := List.cons.inj split
          exact ⟨skipped, v, rest, rfl, unbroken.2, rfl, stops⟩

theorem Unbroken.not_opens {previous : Kind} {tokens : List Token} (h : Unbroken previous tokens) :
    ∀ t ∈ tokens, t.kind.opens = false := by
  induction tokens generalizing previous with
  | nil => simp
  | cons t tokens ih =>
    rw [List.forall_mem_cons]
    refine ⟨?_, ih h.2⟩
    have inner := h.1
    simp only [Boundary, Kind.startsStatement_iff, not_or] at inner
    simpa using inner.2.2.2

theorem unbroken_of_plain {previous : Kind} {tokens : List Token}
    (plain : ∀ t ∈ tokens, t.kind ≠ .eof ∧ t.kind.startsStatement = false)
    (open' : previous ≠ .semicolon ∨ tokens = [])
    (joined : ∀ t ∈ tokens.dropLast, t.kind ≠ .semicolon) : Unbroken previous tokens := by
  induction tokens generalizing previous with
  | nil => trivial
  | cons t tokens ih =>
    rw [List.forall_mem_cons] at plain
    refine ⟨?_, ih plain.2 ?_ ?_⟩
    · simpa [Boundary, plain.1] using open'
    · cases tokens with
      | nil => exact .inr rfl
      | cons u tokens => exact .inl (joined t (by simp))
    · cases tokens with
      | nil => simp
      | cons u tokens => exact fun v mem => joined v (by simp [mem])

theorem synchronize_eq_ok {offending : Token} {beyond after : List Token}
    (h : synchronize (offending :: beyond) = .ok after) :
    offending.kind = .eof ∧ after = offending :: beyond ∨
      offending.kind ≠ .eof ∧ ∃ others t rest, beyond = others ++ after ∧
        Unbroken offending.kind others ∧ after = t :: rest ∧
        Boundary (lastKind offending.kind others) t := by
  rw [synchronize] at h
  split at h
  · next last =>
    cases h
    exact .inl ⟨last, rfl⟩
  · next notLast => exact .inr ⟨notLast, skip_eq_ok_iff.1 h⟩

theorem getLast?_of_lastKind {t : Token} {others : List Token} {kind : Kind}
    (h : lastKind t.kind others = kind) : ∃ u ∈ (t :: others).getLast?, u.kind = kind := by
  obtain ⟨u, last⟩ := List.getLast?_isSome.2 (List.cons_ne_nil t others) |>
    Option.isSome_iff_exists.1
  refine ⟨u, last, ?_⟩
  rw [← h]
  exact (lastKind_eq_of_getLast? last t.kind).symm

section
variable {offending : Token} {beyond after : List Token}

theorem synchronize_resumes (h : synchronize (offending :: beyond) = .ok after) :
    ∃ skipped, offending :: beyond = skipped ++ after ∧ (∀ u ∈ skipped.tail, u.kind.opens = false) ∧
      ((∃ u ∈ skipped.getLast?, u.kind = .semicolon) ∨
        ∃ u more, after = u :: more ∧ (u.kind = .eof ∨ u.kind = .kwClass ∨ u.kind.opens)) := by
  obtain ⟨last, rfl⟩ | ⟨-, others, t, rest, rfl, unbroken, rfl, stops⟩ := synchronize_eq_ok h
  · exact ⟨[], rfl, by simp, .inr ⟨offending, beyond, rfl, .inl last⟩⟩
  · refine ⟨offending :: others, rfl, unbroken.not_opens, ?_⟩
    rcases stops with last | closed | starts
    · exact .inr ⟨t, rest, rfl, .inl last⟩
    · exact .inl (getLast?_of_lastKind closed)
    · exact .inr ⟨t, rest, rfl, .inr (Kind.startsStatement_iff.1 starts)⟩

theorem synchronize_stops_at {broken more : List Token} {u : Token} (nonempty : broken ≠ [])
    (split : offending :: beyond = broken ++ u :: more) (notLast : offending.kind ≠ .eof)
    (plain : ∀ t ∈ broken.tail, t.kind ≠ .eof ∧ t.kind.startsStatement = false)
    (joined : ∀ t ∈ broken.dropLast, t.kind ≠ .semicolon) (starts : u.kind.opens) :
    synchronize (offending :: beyond) = .ok (u :: more) := by
  obtain ⟨t, others, rfl⟩ := List.exists_cons_of_ne_nil nonempty
  obtain ⟨rfl, rfl⟩ := List.cons.inj split
  rw [synchronize, if_neg notLast, skip_eq_ok_iff]
  refine ⟨others, u, more, rfl, ?_, rfl, .inr (.inr (Kind.startsStatement_iff.2 (.inr starts)))⟩
  cases others with
  | nil => trivial
  | cons v others =>
    rw [List.dropLast_cons_cons, List.forall_mem_cons] at joined
    exact unbroken_of_plain plain (.inl joined.1) joined.2

end

theorem skip_of_ended {previous : Kind} {tokens : List Token} (h : Ended tokens) :
    ∃ after, skip previous tokens = .ok after := by
  induction tokens generalizing previous with
  | nil => simp [Ended] at h
  | cons t tokens ih =>
    rw [skip]
    split
    · exact ⟨_, rfl⟩
    · next goesOn =>
      have notLast : t.kind ≠ .eof := by simp_all
      exact ih ((Passes.cons notLast (.refl tokens)).ended.2 h)

theorem synchronize_of_ended {tokens : List Token} (h : Ended tokens) :
    ∃ after, synchronize tokens = .ok after := by
  cases tokens with
  | nil => simp [Ended] at h
  | cons t tokens =>
    rw [synchronize]
    split
    · exact ⟨_, rfl⟩
    · next notLast => exact skip_of_ended ((Passes.cons notLast (.refl tokens)).ended.2 h)

-- ---------------------------------------------------------------------------
-- Declarations at top level
-- ---------------------------------------------------------------------------

def Reading.append (r r' : Reading) : Reading :=
  { statements := r.statements ++ r'.statements, findings := r.findings ++ r'.findings }

/-- Reading a program comes to a declaration at top level, with what is read and found before. The
numbers count the steps that are left. -/
inductive ComesTo : Nat → List Token → Reading → Nat → List Token → Prop
  | start (n : Nat) (tokens : List Token) : ComesTo n tokens Reading.empty n tokens
  | read {n m : Nat} {t : Token} {rest after left : List Token} {s : Stmt} {found : List Finding}
      {r : Reading} : t.kind ≠ .eof → declaration n (t :: rest) = .read s after found →
      ComesTo n after r m left → ComesTo (n + 1) (t :: rest) (r.cons (some s) found) m left
  | stuck {n m : Nat} {t : Token} {rest stop after left : List Token} {found : List Finding}
      {r : Reading} : t.kind ≠ .eof → declaration n (t :: rest) = .stuck stop found →
      synchronize stop = .ok after → ComesTo n after r m left →
      ComesTo (n + 1) (t :: rest) (r.cons none found) m left

theorem program_of_comesTo {n m : Nat} {tokens left : List Token} {earlier : Reading}
    (h : ComesTo n tokens earlier m left) :
    program n tokens = (program m left).map earlier.append := by
  have append_cons (r : Reading) (s : Option Stmt) (found : List Finding) :
      (r.cons s found).append = Reading.cons s found ∘ r.append := by
    funext r'
    simp [Reading.append, Reading.cons]
  induction h with
  | start n tokens =>
    have same : Reading.empty.append = id := rfl
    cases program n tokens <;> simp [same, Except.map]
  | read ht first _ ih =>
    rw [program, if_neg ht, first, append_cons]
    dsimp only
    rw [ih]
    cases program _ _ <;> rfl
  | stuck ht first skipped _ ih =>
    rw [program, if_neg ht, first, append_cons]
    dsimp only
    rw [skipped]
    dsimp only
    rw [ih]
    cases program _ _ <;> rfl

theorem ComesTo.passes {n m : Nat} {tokens left : List Token} {earlier : Reading}
    (h : ComesTo n tokens earlier m left) :
    Passes tokens left ∧ left.length + n ≤ tokens.length + m := by
  induction h with
  | start n tokens => exact ⟨.refl tokens, Nat.le_refl _⟩
  | @read n m t rest after left s found r ht first _ ih =>
    have spent := spends_declaration n (t :: rest)
    rw [first] at spent
    refine ⟨spent.passes.trans ih.1, ?_⟩
    have least := spent.least
    omega
  | @stuck n m t rest stop after left found r ht first skipped _ ih =>
    have blocked := spends_declaration n (t :: rest)
    rw [first] at blocked
    obtain ⟨passes, shorter⟩ := synchronize_shorter ht blocked skipped
    refine ⟨passes.trans ih.1, ?_⟩
    omega

section
variable {tokens rest beyond after : List Token} {earlier : Reading} {n : Nat} {t offending : Token}
  {found : List Finding}

theorem parse_of_failed (reached : ComesTo (steps tokens.length) tokens earlier (n + 1) (t :: rest))
    (ht : t.kind ≠ .eof) (failed : declaration n (t :: rest) = .stuck (offending :: beyond) found)
    (skips : synchronize (offending :: beyond) = .ok after) :
    parse tokens = (parse after).map (fun r => earlier.append (r.cons none found)) := by
  have blocked := spends_declaration n (t :: rest)
  rw [failed] at blocked
  obtain ⟨passes, left⟩ := reached.passes
  obtain ⟨-, shorter⟩ := synchronize_shorter ht blocked skips
  have enough : steps after.length ≤ n := by
    have fewer := passes.length_le
    unfold steps at left ⊢
    omega
  rw [parse, program_of_comesTo reached, program, if_neg ht, failed]
  dsimp only
  rw [skips]
  dsimp only
  rw [program_eq_parse enough]
  cases parse after <;> rfl

/-- If a declaration at top level fails, reading resumes behind a semicolon, at the end, or before
the next token that starts a statement, and what stands there is read as if it stood alone. Of the
tokens that are skipped at most the offending one starts a statement. -/
theorem recovery_spares_statements (ended : Ended tokens)
    (reached : ComesTo (steps tokens.length) tokens earlier (n + 1) (t :: rest))
    (ht : t.kind ≠ .eof) (failed : declaration n (t :: rest) = .stuck (offending :: beyond) found) :
    (∃ noted cause, found = noted ++ [Finding.at offending beyond cause]) ∧
    ∃ skipped after, synchronize (offending :: beyond) = .ok after ∧
      offending :: beyond = skipped ++ after ∧
      (∀ u ∈ skipped.tail, u.kind.opens = false) ∧
      (offending.kind.opens = false → ∀ u ∈ skipped, u.kind.opens = false) ∧
      ((∃ u ∈ skipped.getLast?, u.kind = .semicolon) ∨
        ∃ u more, after = u :: more ∧ (u.kind = .eof ∨ u.kind = .kwClass ∨ u.kind.opens)) ∧
      parse tokens = (parse after).map (fun r => earlier.append (r.cons none found)) ∧
      ∀ broken u more, offending :: beyond = broken ++ u :: more → broken ≠ [] → u.kind.opens →
        (∀ v ∈ broken, v.kind ≠ .eof) → (∀ v ∈ broken.tail, v.kind.startsStatement = false) →
        (∀ v ∈ broken.dropLast, v.kind ≠ .semicolon) → after = u :: more := by
  have blocked := spends_declaration n (t :: rest)
  rw [failed] at blocked
  obtain ⟨after, skips⟩ :=
    synchronize_of_ended (blocked.passes.ended.2 (reached.passes.1.ended.2 ended))
  obtain ⟨noted, u, more, cause, here, at', -, -⟩ := blocked.last
  obtain ⟨rfl, rfl⟩ := List.cons.inj here
  obtain ⟨skipped, split, spared, resumes⟩ := synchronize_resumes skips
  refine ⟨⟨noted, cause, at'⟩, skipped, after, skips, split, spared, ?_, resumes,
    parse_of_failed reached ht failed skips, ?_⟩
  · intro ordinary
    cases skipped with
    | nil => simp
    | cons w others =>
      obtain ⟨rfl, -⟩ := List.cons.inj split
      exact List.forall_mem_cons.2 ⟨ordinary, spared⟩
  · intro broken u more split nonempty opens inner plain joined
    have notLast : offending.kind ≠ .eof := by
      obtain ⟨v, others, rfl⟩ := List.exists_cons_of_ne_nil nonempty
      obtain ⟨rfl, -⟩ := List.cons.inj split
      exact inner offending (List.mem_cons_self ..)
    have stops := synchronize_stops_at nonempty split notLast
      (fun v mem => ⟨inner v (List.mem_of_mem_tail mem), plain v mem⟩) joined opens
    exact Except.ok.inj (skips.symm.trans stops)

end

def printBehind (first : List Token) : List Token :=
  first ++ [⟨.kwPrint, "print", none, 1⟩, ⟨.kwNil, "nil", none, 1⟩, ⟨.semicolon, ";", none, 1⟩,
    Token.atEnd 1]

theorem recovery_spares_print :
    ∃ r, parse (printBehind [⟨.kwNil, "nil", none, 1⟩, ⟨.kwNil, "nil", none, 1⟩]) = .ok r ∧
      r.statements = [.print (.literal .nil)] := by
  have ended : Ended (printBehind [⟨.kwNil, "nil", none, 1⟩, ⟨.kwNil, "nil", none, 1⟩]) :=
    ⟨Token.atEnd 1, by decide, rfl⟩
  obtain ⟨-, -, after, -, -, -, -, -, alone, stops⟩ :=
    recovery_spares_statements ended (.start _ _) (by decide) rfl
  obtain rfl := stops [⟨.kwNil, "nil", none, 1⟩] _ _ rfl (by decide) rfl (by decide) (by decide)
    (by decide)
  exact ⟨_, alone, rfl⟩

/-- A `print` right behind `print nil` is not read: the error is found at its keyword, and that is
skipped. -/
theorem recovery_swallows_statement :
    ∃ n offending beyond found skipped after,
      declaration n (printBehind [⟨.kwPrint, "print", none, 1⟩, ⟨.kwNil, "nil", none, 1⟩]) =
        .stuck (offending :: beyond) found ∧
      synchronize (offending :: beyond) = .ok after ∧ offending :: beyond = skipped ++ after ∧
      (∃ u ∈ skipped, u.kind = .kwPrint) ∧
      ∃ r, parse (printBehind [⟨.kwPrint, "print", none, 1⟩, ⟨.kwNil, "nil", none, 1⟩]) = .ok r ∧
        r.statements = [] := by
  refine ⟨100, _, _, _, (printBehind []).take 3, _, rfl, rfl, rfl, ⟨_, List.mem_cons_self .., rfl⟩,
    _, rfl, rfl⟩

end Grammar

end Lox
