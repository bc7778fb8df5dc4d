import Lox.Proofs.Grammar.Operands
import Lox.Proofs.Grammar.Productions
import Lox.Proofs.Grammar.Recovery

/-!
# Errors are found where they are

A rule takes what its form allows and no token more. If it reads something, no word that starts with
the same tokens and goes on with the next one can be split in another way. If it is stuck, the
tokens before can be completed to a word of the form, but not to one that goes on with the token at
which the rule is stuck.

This is said relative to what may follow, a language `K`: an operation ends where no operator
follows it, and an `else` is taken by the nearest `if`, which is right only where the statement that
it brings could also belong to an `if` around it (`Allows`).
-/

namespace Lox.Grammar

variable {α β : Type}

def kinds (tokens : List Token) : List Kind :=
  tokens.map Token.kind

/-- The word goes on with the first of the tokens. -/
def GoesOn (word : List Kind) (tokens : List Token) : Prop :=
  word.head? = (kinds tokens).head?

theorem GoesOn.append {word : List Kind} {rest : List Token} (h : GoesOn word rest)
    (taken : List Token) : GoesOn (kinds taken ++ word) (taken ++ rest) := by
  cases taken with
  | nil => exact h
  | cons t taken => rfl

/-- What is taken before the rest of a reply, where a word of `K` may follow: a word of the form and
nothing else if something was read, the beginning of a word if the rule is stuck; and with the next
token it is no beginning of a word then. -/
def Reply.Locates (form : Form) (K : Language Kind) (tokens : List Token) : Reply α → Prop
  | .read _ rest _ =>
    ∃ taken, tokens = taken ++ rest ∧ kinds taken ∈ form.language ∧
      ∀ word, GoesOn word rest → kinds taken ++ word ∈ form.language * K → word ∈ K
  | .stuck rest _ =>
    ∃ taken, tokens = taken ++ rest ∧ (∃ word, kinds taken ++ word ∈ form.language) ∧
      ∀ word, GoesOn word rest → kinds taken ++ word ∉ form.language * K
  | .broken _ => True

theorem Reply.Locates.after {form : Form} {K : Language Kind} {tokens : List Token} {r : Reply α}
    (h : r.Locates form K tokens) (earlier : List Finding) :
    (r.after earlier).Locates form K tokens := by
  cases r <;> exact h

theorem Reply.Locates.widen {form wider : Form} {K : Language Kind} {tokens : List Token}
    {r : Reply α} (h : r.Locates form K tokens)
    (sub : ∀ word ∈ form.language, word ∈ wider.language)
    (narrow : ∀ word, GoesOn word tokens → word ∈ wider.language * K → word ∈ form.language * K) :
    r.Locates wider K tokens := by
  cases r with
  | read value rest findings =>
    obtain ⟨taken, rfl, mem, only⟩ := h
    refine ⟨taken, rfl, sub _ mem, fun word goes whole => only word goes ?_⟩
    exact narrow _ (goes.append taken) whole
  | stuck rest findings =>
    obtain ⟨taken, rfl, ⟨word, mem⟩, none⟩ := h
    refine ⟨taken, rfl, ⟨word, sub _ mem⟩, fun word goes whole => none word goes ?_⟩
    exact narrow _ (goes.append taken) whole
  | broken fault => trivial

namespace Rule

def Locates (form : Form) (K : Language Kind) (rule : Rule α) : Prop :=
  ∀ tokens, (rule tokens).Locates form K tokens

/-- The same, where the first token is known. -/
def LocatesAt (form : Form) (K : Language Kind) (first : Token) (rule : Rule α) : Prop :=
  ∀ rest, (rule (first :: rest)).Locates form K (first :: rest)

section
variable {form form' a b : Form} {K : Language Kind} {x y : Rule α} {t : Token}

theorem Locates.at (h : Locates form K x) (t : Token) : LocatesAt form K t x :=
  fun rest => h (t :: rest)

theorem Locates.of_first (none : x [] = .broken .missingEnd) (h : ∀ t, LocatesAt form K t x) :
    Locates form K x := by
  intro tokens
  cases tokens with
  | nil =>
    rw [none]
    trivial
  | cons t rest => exact h t rest

theorem Locates.congr (h : Locates form K x) (same : form.language = form'.language) :
    Locates form' K x :=
  fun tokens => (h tokens).widen (fun _ mem => by rwa [← same]) fun _ _ whole => by rwa [same]

theorem LocatesAt.congr (h : LocatesAt form K t x) (same : form.language = form'.language) :
    LocatesAt form' K t x :=
  fun rest => (h rest).widen (fun _ mem => by rwa [← same]) fun _ _ whole => by rwa [same]

theorem Locates.part {p : Part} (h : Locates p.production K x) : Locates (.part p) K x :=
  h.congr (Form.language_part p).symm

theorem LocatesAt.part {p : Part} (h : LocatesAt p.production K t x) : LocatesAt (.part p) K t x :=
  h.congr (Form.language_part p).symm

theorem Locates.fail (fault : Fault) : Locates form K (fail fault : Rule α) :=
  fun _ => trivial

theorem Locates.pure (value : α) : Locates .empty K (Pure.pure value) := by
  intro tokens
  refine ⟨[], rfl, Derives.empty, fun word _ whole => ?_⟩
  rwa [Form.language_empty, one_mul] at whole

theorem Locates.bind {f : α → Rule β} (hx : Locates a (b.language * K) x)
    (hf : ∀ v, Locates b K (f v)) : Locates (.both a b) K (x >>= f) := by
  intro tokens
  have first := hx tokens
  rw [bind_apply]
  cases hr : x tokens with
  | read v middle noted =>
    rw [hr] at first
    obtain ⟨taken, rfl, mem, only₁⟩ := first
    refine Reply.Locates.after ?_ noted
    have second := hf v middle
    cases hs : f v middle with
    | read w rest findings =>
      rw [hs] at second
      obtain ⟨taken', rfl, mem', only₂⟩ := second
      refine ⟨taken ++ taken', (List.append_assoc ..).symm, ?_, fun word goes whole => ?_⟩
      · rw [kinds, List.map_append]
        exact Derives.both mem mem'
      · rw [kinds, List.map_append, List.append_assoc, Form.language_both, mul_assoc] at whole
        exact only₂ word goes (only₁ _ (goes.append taken') whole)
    | stuck rest findings =>
      rw [hs] at second
      obtain ⟨taken', rfl, ⟨word, mem'⟩, none⟩ := second
      refine ⟨taken ++ taken', (List.append_assoc ..).symm, ⟨word, ?_⟩, fun word goes whole => ?_⟩
      · rw [kinds, List.map_append, List.append_assoc]
        exact Derives.both mem mem'
      · rw [kinds, List.map_append, List.append_assoc, Form.language_both, mul_assoc] at whole
        exact none word goes (only₁ _ (goes.append taken') whole)
    | broken fault => trivial
  | stuck rest findings =>
    rw [hr] at first
    obtain ⟨taken, rfl, ⟨word, mem⟩, none⟩ := first
    obtain ⟨more, mem'⟩ := b.inhabited
    refine ⟨taken, rfl, ⟨word ++ more, ?_⟩, fun word goes whole => none word goes ?_⟩
    · rw [← List.append_assoc]
      exact Derives.both mem mem'
    · rwa [Form.language_both, mul_assoc] at whole
  | broken fault => trivial

theorem Locates.last {f : α → Rule β} (hx : Locates a K x) (hf : ∀ v, Locates .empty K (f v)) :
    Locates a K (x >>= f) := by
  have bound : Locates (.both a .empty) K (x >>= f) :=
    .bind (by rwa [Form.language_empty, one_mul]) hf
  exact bound.congr (by simp)

/-! Errors that are only noted. -/

theorem Locates.note {f : Unit → Rule β} (finding : Finding) (hf : Locates a K (f ())) :
    Locates a K (note finding >>= f) := by
  intro tokens
  exact (hf tokens).after [finding]

theorem LocatesAt.finding {f : Finding → Rule β} {cause : GrammarCause}
    (hf : ∀ v, LocatesAt a K t (f v)) : LocatesAt a K t (finding cause >>= f) := by
  intro rest
  exact (hf _ rest).after []

theorem Locates.noteHereIf {f : Unit → Rule β} (wrong : Bool) (cause : GrammarCause)
    (hf : Locates a K (f ())) : Locates a K (noteHereIf wrong cause >>= f) := by
  unfold Rule.noteHereIf
  cases wrong with
  | false => exact fun tokens => (hf tokens).after []
  | true =>
    refine .of_first rfl fun t rest => ?_
    exact (hf (t :: rest)).after [_]

/-! The first token decides. -/

theorem LocatesAt.one (h : LocatesAt a K t x) (others : Heads (· ≠ t.kind) (b.language * K)) :
    LocatesAt (.either a b) K t x := by
  refine fun rest => (h rest).widen (fun _ mem => Derives.one mem) fun word goes whole => ?_
  rw [Form.language_either, add_mul, Language.mem_add] at whole
  exact whole.resolve_right fun mem => others.head?_ne mem goes

theorem LocatesAt.other (h : LocatesAt b K t x) (others : Heads (· ≠ t.kind) (a.language * K)) :
    LocatesAt (.either a b) K t x := by
  refine fun rest => (h rest).widen (fun _ mem => Derives.other mem) fun word goes whole => ?_
  rw [Form.language_either, add_mul, Language.mem_add] at whole
  exact whole.resolve_left fun mem => others.head?_ne mem goes

theorem LocatesAt.choose (h : LocatesAt (form.choose t.kind) K t x) : LocatesAt form K t x := by
  have excluded {c : Form} (hc : c.nullable = false ∧ t.kind ∉ c.starts) :
      Heads (· ≠ t.kind) (c.language * K) :=
    .of_starts hc.1 (by rintro k mem rfl; exact hc.2 mem)
  induction form with
  | either a b iha ihb =>
    rw [Form.choose] at h
    split at h
    · next ha => exact .other (ihb h) (excluded ha)
    split at h
    · next hb => exact .one (iha h) (excluded hb)
    · exact h
  | _ => exact h

theorem LocatesAt.present (h : LocatesAt a K t x) (others : Heads (· ≠ t.kind) K) :
    LocatesAt (.optional a) K t x :=
  .one h (by rwa [Form.language_empty, one_mul])

theorem LocatesAt.absent (h : Locates .empty K x) (hn : a.nullable = false)
    (ht : t.kind ∉ a.starts) : LocatesAt (.optional a) K t x :=
  .other (h.at t) (.of_starts hn (by rintro k mem rfl; exact ht mem))

theorem LocatesAt.repeated (h : LocatesAt (.both a (.many a)) K t x)
    (others : Heads (· ≠ t.kind) K) : LocatesAt (.many a) K t x :=
  LocatesAt.congr (.present h others) (Form.language_many a).symm

theorem LocatesAt.ended (h : Locates .empty K x) (hn : a.nullable = false)
    (ht : t.kind ∉ a.starts) : LocatesAt (.many a) K t x := by
  refine LocatesAt.congr (.absent h ?_ ?_) (Form.language_many a).symm
  · simp [Form.nullable, hn]
  · simpa [Form.starts, hn] using ht

theorem Locates.peek {f : Token → Rule α} (hf : ∀ t, LocatesAt a K t (f t)) :
    Locates a K (peek >>= f) :=
  .of_first rfl fun t rest => (hf t rest).after []

theorem Locates.whenAt {kind : Kind} (hx : ∀ t, t.kind = kind → LocatesAt a K t x)
    (hy : ∀ t, t.kind ≠ kind → LocatesAt a K t y) :
    Locates a K (Rule.check kind >>= fun found => if found = true then x else y) := by
  refine .of_first rfl fun t rest => ?_
  rw [check_bind]
  by_cases ht : t.kind = kind
  · rw [if_pos (decide_eq_true ht)]
    exact hx t ht rest
  · rw [if_neg (by simpa using ht)]
    exact hy t ht rest

theorem Locates.unlessAt {kind : Kind} (absent : α) (hK : Heads (· = kind) K)
    (hx : Locates a K x) (hn : a.nullable = false) (hk : kind ∉ a.starts) :
    Locates (.optional a) K (unlessAt kind absent x) := by
  refine .whenAt (fun t ht => ?_) fun t ht => ?_
  · exact .absent (.pure absent) hn (ht ▸ hk)
  · refine .present (hx.at t) (hK.mono ?_)
    rintro _ rfl same
    exact ht same.symm

theorem LocatesAt.stuck {cause : GrammarCause} (hn : a.nullable = false) (ht : t.kind ∉ a.starts) :
    LocatesAt a K t (stuck cause : Rule α) := by
  intro rest
  refine ⟨[], rfl, a.inhabited, fun word goes whole => ?_⟩
  have others : Heads (· ≠ t.kind) (a.language * K) :=
    .of_starts hn (by rintro k mem rfl; exact ht mem)
  exact others.head?_ne whole goes

theorem cons_mem_token_mul {kind k : Kind} {others word : List Kind} {L : Language Kind} :
    k :: word ∈ (Form.token kind others).language * L ↔ k ∈ kind :: others ∧ word ∈ L := by
  rw [Language.mem_mul]
  constructor
  · rintro ⟨u, hu, v, hv, same⟩
    obtain ⟨k', mem, rfl⟩ := Form.mem_language_token.1 hu
    cases same
    exact ⟨mem, hv⟩
  · rintro ⟨mem, hw⟩
    exact ⟨[k], Form.mem_language_token.2 ⟨k, mem, rfl⟩, word, hw, rfl⟩

theorem LocatesAt.advance {f : Token → Rule β} {kind : Kind} {others : List Kind}
    (ht : t.kind ∈ kind :: others) (notLast : t.kind ≠ .eof) (hf : Locates b K (f t)) :
    LocatesAt (.both (.token kind others) b) K t (advance >>= f) := by
  intro rest
  have after := hf rest
  rw [advance_bind, if_neg notLast]
  cases hr : f t rest with
  | read v left findings =>
    rw [hr] at after
    obtain ⟨taken, rfl, mem, only⟩ := after
    refine ⟨t :: taken, rfl, Derives.both (u := [t.kind]) (.token ht) mem,
      fun word goes whole => ?_⟩
    rw [Form.language_both, mul_assoc] at whole
    exact only word goes (cons_mem_token_mul.1 whole).2
  | stuck left findings =>
    rw [hr] at after
    obtain ⟨taken, rfl, ⟨word, mem⟩, none⟩ := after
    refine ⟨t :: taken, rfl, ⟨word, Derives.both (u := [t.kind]) (.token ht) mem⟩, ?_⟩
    intro word goes whole
    rw [Form.language_both, mul_assoc] at whole
    exact none word goes (cons_mem_token_mul.1 whole).2
  | broken fault => trivial

theorem LocatesAt.advanceLast {f : Token → Rule β} {kind : Kind} {others : List Kind}
    (ht : t.kind ∈ kind :: others) (notLast : t.kind ≠ .eof) (hf : Locates .empty K (f t)) :
    LocatesAt (.token kind others) K t (Rule.advance >>= f) :=
  LocatesAt.congr (.advance ht notLast hf) (by simp)

theorem Locates.expect {f : Token → Rule β} {kind : Kind} (hk : kind ≠ .eof) (what : String)
    (hf : ∀ t, Locates b K (f t)) : Locates (.both (.token kind) b) K (expect kind what >>= f) := by
  refine .of_first rfl fun t rest => ?_
  rw [expect_bind]
  by_cases ht : t.kind = kind
  · rw [if_pos ht]
    exact LocatesAt.advance (by simp [ht]) (ht ▸ hk) (hf t) rest
  · rw [if_neg ht]
    exact LocatesAt.stuck rfl (by simpa [Form.starts, Form.nullable] using ht) rest

end

end Rule

open Rule (Locates LocatesAt)

-- ---------------------------------------------------------------------------
-- Expressions
-- ---------------------------------------------------------------------------

theorem Level.operator_eq (level : Level) :
    ∃ kind others, level.operator = .token kind others ∧
      ∀ k, k ∈ kind :: others ↔ level.operates k := by
  cases level <;> refine ⟨_, _, rfl, fun k => ?_⟩ <;> cases k <;> decide

theorem Heads.past_tail {level : Level} {tighter : List Level} {K : Language Kind}
    (h : Heads (Past (level :: tighter)) K) : Heads (Past tighter) K :=
  h.mono fun _ past => ⟨past.1, fun l mem => past.2 l (List.mem_cons_of_mem _ mem)⟩

mutual

theorem locates_expression : ∀ (n : Nat) {K : Language Kind}, Heads Closes K →
    Locates (.part .expression) K (expression n)
  | 0, _, _ => .fail _
  | n + 1, K, hK => by
    have past : Heads (Past Level.all) K := hK.mono fun _ closes => closes.1
    have ends : Heads (· ≠ .equal) K := hK.mono fun _ closes => closes.2
    refine .part
      (.bind (locates_operation n graded_all (.optional (by decide) past)) fun left => ?_)
    have single {form : Form} : (Form.sequence [form]).language = form.language := by simp
    refine Locates.congr (.whenAt (fun t ht => ?_) fun t ht => ?_) single.symm
    · refine .present (.finding fun wrong => ?_) (ht ▸ ends)
      refine .advance (by simp [ht]) (by simp [ht]) ?_
      refine .bind (locates_expression n (by simpa using hK)) fun value => ?_
      split
      · exact .pure _
      · exact .note _ (.pure _)
    · exact .absent (.pure _) rfl (by simpa using ht)

theorem locates_operation : ∀ (n : Nat) {levels : List Level} {K : Language Kind}, Graded levels →
    Heads (Past levels) K → Locates (.part (.operation levels)) K (operation n levels)
  | 0, _, _, _, _ => .fail _
  | n + 1, [], _, _, hK => .part (locates_unary n hK)
  | n + 1, level :: tighter, K, graded, hK => by
    obtain ⟨kind, others, same, operates⟩ := level.operator_eq
    refine .part (Locates.congr (.bind (locates_operation n graded.2 (.optional ?_ hK.past_tail))
      fun left => locates_operationRest n graded hK) (by simp [Part.production]))
    intro k mem
    rw [Form.starts, same] at mem
    exact past_of_operates graded ((operates k).1 mem)

theorem locates_operationRest : ∀ (n : Nat) {level : Level} {tighter : List Level} {left : Expr}
    {K : Language Kind}, Graded (level :: tighter) → Heads (Past (level :: tighter)) K →
    Locates (.many (.sequence [level.operator, .part (.operation tighter)])) K
      (operationRest n level tighter left)
  | 0, _, _, _, _, _, _ => .fail _
  | n + 1, level, tighter, left, K, graded, hK => by
    obtain ⟨kind, others, same, operates⟩ := level.operator_eq
    refine .peek fun t => ?_
    by_cases ht : level.operates t.kind
    · rw [if_pos ht]
      have goesOn :
          ∀ k ∈ (Form.many (.sequence [level.operator, .part (.operation tighter)])).starts,
          Past tighter k := by
        intro k mem
        rw [Form.starts, same] at mem
        exact past_of_operates graded ((operates k).1 mem)
      have ends : Heads (fun k => ¬ level.operates k) K :=
        hK.mono fun k past => by simp [past.2 level (List.mem_cons_self ..)]
      refine .repeated (LocatesAt.congr (.advance ((operates _).2 ht) (ne_eof_of_operates ht)
        (.bind (locates_operation n graded.2 (.optional goesOn hK.past_tail)) fun right =>
          locates_operationRest n graded hK)) ?_) (ends.ne_of ht)
      simp [same, mul_assoc]
    · rw [if_neg ht]
      refine .ended (.pure _) ?_ ?_
      · rw [same]
        rfl
      · rw [same]
        exact mt (operates t.kind).1 ht

theorem locates_unary : ∀ (n : Nat) {K : Language Kind}, Heads (Past []) K →
    Locates (.part .unary) K (unary n)
  | 0, _, _ => .fail _
  | n + 1, K, hK => by
    refine .part (.peek fun t => ?_)
    by_cases ht : isUnary t.kind
    · rw [if_pos ht]
      have calls : Heads (fun k => ¬ isUnary k) ((Form.part .call).language * K) :=
        .of_starts rfl (by decide)
      refine .one (.advance ?_ (ne_eof_of_isUnary ht) ?_) (calls.ne_of ht)
      · revert ht
        cases t.kind <;> decide
      · exact .bind (locates_unary n (by simpa using hK)) fun _ => .pure _
    · rw [if_neg ht]
      have call := Locates.bind (f := callRest n) (locates_primary n) fun _ => locates_callRest n hK
      refine .other (LocatesAt.part (LocatesAt.congr (call.at t) (by simp [Part.production]))) ?_
      refine .of_starts rfl ?_
      rintro k mem rfl
      revert ht mem
      cases t.kind <;> decide

theorem locates_callRest : ∀ (n : Nat) {callee : Expr} {K : Language Kind}, Heads (Past []) K →
    Locates
      (.many (.sequence [.token .leftParen, .optional (.part .arguments), .token .rightParen])) K
      (callRest n callee)
  | 0, _, _, _ => .fail _
  | n + 1, callee, K, hK => by
    have ends : Heads (· ≠ .leftParen) K := hK.mono fun _ past => past.1
    refine .whenAt (fun t ht => ?_) fun t ht => ?_
    · have isParen : t.kind ∈ [Kind.leftParen] := by simp [ht]
      refine .repeated (LocatesAt.congr (.advance isParen (by simp [ht])
        (.bind (.unlessAt _ ?_ (locates_arguments n ?_) rfl (by decide)) fun given =>
          .expect (by decide) _ fun paren => locates_callRest n hK)) ?_) (ht ▸ ends)
      · exact .of_starts rfl (by decide)
      · exact .of_starts rfl (by decide)
      · simp [mul_assoc]
    · exact .ended (.pure _) rfl (by simpa using ht)

theorem locates_arguments : ∀ (n : Nat) {count : Nat} {K : Language Kind},
    Heads (· = .rightParen) K → Locates (.part .arguments) K (arguments n count)
  | 0, _, _, _ => .fail _
  | n + 1, count, K, hK => by
    have closes : Heads Closes K := hK.mono (by rintro _ rfl; decide)
    have ends : Heads (· ≠ .comma) K := hK.mono (by rintro _ rfl; decide)
    refine Locates.congr (.noteHereIf _ _ ?_) (Form.language_list rfl).symm
    refine .bind (locates_expression n (.optional (by decide) closes)) fun first => ?_
    refine .whenAt (fun t ht => ?_) fun t ht => ?_
    · refine .present (.advance (by simp [ht]) (by simp [ht]) ?_) (ht ▸ ends)
      exact .last (locates_arguments n hK) fun _ => .pure _
    · exact .absent (.pure _) rfl (by simpa [Form.starts, Form.nullable] using ht)

theorem locates_primary : ∀ (n : Nat) {K : Language Kind}, Locates (.part .primary) K (primary n)
  | 0, _ => .fail _
  | n + 1, K => by
    have groups : Heads (· = .leftParen)
        ((Form.sequence [.token .leftParen, .part .expression, .token .rightParen]).language * K) :=
      .of_starts rfl (by decide)
    refine .part (.peek fun t => ?_)
    split
    · next ht =>
      refine .one (.advanceLast ?_ (ne_eof_of_isLiteral ht) ?_) (groups.mono ?_)
      · revert ht
        cases t.kind <;> decide
      · split
        · exact .pure _
        · exact .fail _
      · rintro _ rfl same
        rw [← same] at ht
        cases ht
    split
    · next ht =>
      refine .one (.advanceLast (by simp [ht]) (by simp [ht]) (.pure _)) (groups.mono ?_)
      rintro _ rfl
      simp [ht]
    split
    · next ht =>
      refine .other (.advance (by simp [ht]) (by simp [ht]) ?_) (ht ▸ .of_starts rfl (by decide))
      refine .bind (locates_expression n (.of_starts rfl (by decide))) fun inner => ?_
      exact .expect (by decide) _ fun _ => .pure _
    · next literal identifier paren =>
      refine .stuck rfl ?_
      revert literal identifier paren
      cases t.kind <;> decide

end

-- ---------------------------------------------------------------------------
-- Statements
-- ---------------------------------------------------------------------------

/-- A token of the kind that can follow here can also be taken together with what the form allows
behind it. -/
def Allows (kind : Kind) (form : Form) (K : Language Kind) : Prop :=
  ∀ word, kind :: word ∈ K → word ∈ form.language * K

theorem Heads.allows {kind : Kind} {K : Language Kind} (h : Heads (· ≠ kind) K) (form : Form) :
    Allows kind form K :=
  fun _ mem => absurd rfl (h.head?_ne mem)

/-- An `else` behind a statement may be the one of that statement or of one around it. -/
theorem Allows.optional {kind : Kind} {form : Form} {K : Language Kind} (h : Allows kind form K) :
    Allows kind form
    ((Form.sequence [.optional (.sequence [.token kind, form])]).language * K) := by
  intro word mem
  simp only [Form.language_sequence_cons, Form.language_sequence_nil, mul_one, Form.optional,
    Form.language_either, Form.language_empty, add_mul, one_mul, Language.mem_add, mul_add,
    mul_assoc] at mem ⊢
  rcases mem with mem | mem
  · exact .inr (Rule.cons_mem_token_mul.1 mem).2
  · exact .inr (h word mem)

namespace Rule

theorem Locates.following {a : Form} {K : Language Kind} {x : Rule α} {kind : Kind}
    (hk : kind ≠ .eof) (allows : Allows kind a K) (hx : Locates a K x) :
    Locates (.optional (.sequence [.token kind, a])) K (following kind x) := by
  refine .whenAt (fun t ht => ?_) fun t ht => ?_
  · have taken : LocatesAt (.sequence [.token kind, a]) K t
        (Rule.advance >>= fun _ => x >>= fun v => Pure.pure (some v)) :=
      .advance (by simp [ht]) (ht ▸ hk) (.bind (by simpa using hx) fun _ => .pure _)
    refine fun rest => (taken rest).widen (fun _ mem => Derives.one mem) fun word goes whole => ?_
    rw [Form.optional, Form.language_either, add_mul, Language.mem_add, Form.language_empty,
      one_mul] at whole
    rcases whole with whole | whole
    · exact whole
    · -- The token is there already as one that may follow.
      obtain ⟨word, rfl⟩ := List.head?_eq_some_iff.1 (goes.trans (congrArg some ht))
      simp only [Form.language_sequence_cons, Form.language_sequence_nil, mul_one, mul_assoc]
      exact cons_mem_token_mul.2 ⟨List.mem_singleton_self _, allows word whole⟩
  · exact .absent (.pure _) rfl (by simpa using ht)

end Rule

theorem locates_parameters : ∀ (n : Nat) {count : Nat} {K : Language Kind},
    Heads (· = .rightParen) K → Locates (.part .parameters) K (parameters n count)
  | 0, _, _, _ => .fail _
  | n + 1, count, K, hK => by
    have ends : Heads (· ≠ .comma) K := hK.mono (by rintro _ rfl; decide)
    refine Locates.congr (.noteHereIf _ _ (.expect (by decide) _ fun first =>
      .whenAt (fun t ht => ?_) fun t ht => ?_)) (Form.language_list rfl).symm
    · refine .present (.advance (by simp [ht]) (by simp [ht]) ?_) (ht ▸ ends)
      exact .last (locates_parameters n hK) fun _ => .pure _
    · exact .absent (.pure _) rfl (by simpa [Form.starts, Form.nullable] using ht)

section
variable (n : Nat) {K : Language Kind}

theorem locates_optionalBefore {kind : Kind} (hK : Heads (· = kind) K) (closes : Closes kind)
    (hk : kind ∉ Part.expression.starts) :
    Locates (.optional (.part .expression)) K (optionalBefore kind n) := by
  have behind : Heads Closes K := hK.mono (by rintro _ rfl; exact closes)
  exact .unlessAt _ hK (.last (locates_expression n behind) fun _ => .pure _) rfl hk

theorem locates_variableRest : Locates Part.variable.production.behind K (variableRest n) := by
  have ends : Heads (· = .semicolon) ((Form.sequence [.token .semicolon]).language * K) :=
    .of_starts rfl (by decide)
  refine .expect (by decide) _ fun name => .bind (.following (by decide) ?_ ?_)
    fun initializer => ?_
  · exact Heads.allows (ends.mono (by rintro _ rfl; decide)) _
  · exact locates_expression n (ends.mono (by rintro _ rfl; decide))
  · exact .expect (by decide) _ fun _ => .pure _

theorem locates_expressionStatement :
    Locates (.part .expressionStatement) K (expressionStatement n) :=
  .part (.bind (locates_expression n (.of_starts rfl (by decide))) fun _ =>
    .expect (by decide) _ fun _ => .pure _)

theorem locates_firstClause :
    Locates (.either (.token .semicolon) (.either (.part .variable) (.part .expressionStatement))) K
      (firstClause n) := by
  refine .peek fun t => ?_
  split
  · next ht =>
    refine .one (.advanceLast (by simp [ht]) (by simp [ht]) (.pure _)) (ht ▸ ?_)
    exact .of_starts rfl (by decide)
  split
  · next notEmpty ht =>
    refine .other (.one (.part (.advance (by simp [ht]) (by simp [ht]) ?_)) (ht ▸ ?_)) (ht ▸ ?_)
    · exact .last (locates_variableRest n) fun _ => .pure _
    · exact .of_starts rfl (by decide)
    · exact .of_starts rfl (by decide)
  · next notEmpty notVar =>
    have wrapped : Locates (.part .expressionStatement) K (some <$> expressionStatement n) :=
      .last (locates_expressionStatement n) fun _ => .pure _
    refine .other (.other (wrapped.at t) (.of_starts rfl ?_)) (.of_starts rfl ?_)
    · simpa [Form.starts, Part.starts] using Ne.symm notVar
    · simpa [Form.starts] using Ne.symm notEmpty

end

mutual

theorem locates_declaration : ∀ (n : Nat) {K : Language Kind}, Allows .kwElse (.part .statement) K →
    Locates (.part .declaration) K (declaration n)
  | 0, _, _ => .fail _
  | n + 1, K, hK => by
    refine .part (.peek fun t => ?_)
    split
    · next ht =>
      refine .one (.part (.advance (by simp [ht]) (by simp [ht]) (locates_functionRest n)))
        (ht ▸ ?_)
      exact .of_starts rfl (by decide)
    split
    · next notFun ht =>
      refine .other (.one (.part (.advance (by simp [ht]) (by simp [ht]) (locates_variableRest n)))
        (ht ▸ ?_)) (ht ▸ ?_)
      · exact .of_starts rfl (by decide)
      · exact .of_starts rfl (by decide)
    · next notFun notVar =>
      refine .other (.other ((locates_statement n hK).at t) (.of_starts rfl ?_)) (.of_starts rfl ?_)
      · simpa [Form.starts, Part.starts] using Ne.symm notVar
      · simpa [Form.starts, Part.starts] using Ne.symm notFun

theorem locates_functionRest : ∀ (n : Nat) {K : Language Kind},
    Locates Part.function.production.behind K (functionRest n)
  | 0, _ => .fail _
  | n + 1, K => by
    refine .expect (by decide) _ fun name => .expect (by decide) _ fun _ => ?_
    have ends : Heads (· = .rightParen)
        ((Form.sequence [.token .rightParen, .part .block]).language * K) :=
      .of_starts rfl (by decide)
    refine .bind (.unlessAt _ ends (locates_parameters n ends) rfl (by decide)) fun names => ?_
    refine .expect (by decide) _ fun _ => Locates.congr (.expect (by decide) _ fun _ =>
      .last (locates_blockRest n) fun _ => .pure _) ?_
    simp [Form.language_part .block, Part.production]

theorem locates_statement : ∀ (n : Nat) {K : Language Kind}, Allows .kwElse (.part .statement) K →
    Locates (.part .statement) K (statement n)
  | 0, _, _ => .fail _
  | n + 1, K, hK => by
    refine .part (.peek fun t => .choose ?_)
    cases ht : t.kind with
    | kwFor => exact .part (.advance (by simp [ht]) (by simp [ht]) (locates_forRest n hK))
    | kwIf => exact .part (.advance (by simp [ht]) (by simp [ht]) (locates_ifRest n hK))
    | kwPrint =>
      refine .part (.advance (by simp [ht]) (by simp [ht]) ?_)
      refine .bind (locates_expression n (.of_starts rfl (by decide))) fun value => ?_
      exact .expect (by decide) _ fun _ => .pure _
    | kwReturn =>
      refine .part (.advance (by simp [ht]) (by simp [ht]) ?_)
      refine .bind (locates_optionalBefore n (.of_starts rfl (by decide)) (by decide) (by decide))
        fun value => ?_
      exact .expect (by decide) _ fun _ => .pure _
    | kwWhile =>
      refine .part (.advance (by simp [ht]) (by simp [ht]) (.expect (by decide) _ fun _ => ?_))
      refine .bind (locates_expression n (.of_starts rfl (by decide))) fun condition => ?_
      refine .expect (by decide) _ fun _ => .bind (locates_statement n ?_) fun _ => .pure _
      simpa using hK
    | leftBrace =>
      refine .part (.advance (by simp [ht]) (by simp [ht]) ?_)
      exact .last (locates_blockRest n) fun _ => .pure _
    | _ => exact (locates_expressionStatement n).at t

theorem locates_forRest : ∀ (n : Nat) {K : Language Kind}, Allows .kwElse (.part .statement) K →
    Locates Part.forStatement.production.behind K (forRest n)
  | 0, _, _ => .fail _
  | n + 1, K, hK => by
    refine .expect (by decide) _ fun _ => .bind (locates_firstClause n) fun initializer => ?_
    refine .bind (locates_optionalBefore n (.of_starts rfl (by decide)) (by decide) (by decide))
      fun condition => .expect (by decide) _ fun _ => ?_
    refine .bind (locates_optionalBefore n (.of_starts rfl (by decide)) (by decide) (by decide))
      fun increment => .expect (by decide) _ fun _ => ?_
    exact .bind (locates_statement n (by simpa using hK)) fun _ => .pure _

theorem locates_ifRest : ∀ (n : Nat) {K : Language Kind}, Allows .kwElse (.part .statement) K →
    Locates Part.ifStatement.production.behind K (ifRest n)
  | 0, _, _ => .fail _
  | n + 1, K, hK => by
    refine .expect (by decide) _ fun _ => ?_
    refine .bind (locates_expression n (.of_starts rfl (by decide))) fun condition => ?_
    refine .expect (by decide) _ fun _ => .bind (locates_statement n hK.optional)
      fun consequent => ?_
    refine .bind (.following (by decide) ?_ (locates_statement n ?_)) fun _ => .pure _
    · simpa using hK
    · simpa using hK

theorem locates_blockRest : ∀ (n : Nat) {K : Language Kind},
    Locates Part.block.production.behind K (blockRest n)
  | 0, _ => .fail _
  | n + 1, K => by
    refine Locates.congr (.peek fun t => ?_) Form.language_block_behind.symm
    split
    · next ht =>
      refine .other (Locates.at (.expect (by decide) _ fun _ => .pure _) t) (.of_starts rfl ?_)
      rintro k mem rfl
      revert mem ht
      cases t.kind <;> decide
    · next ht =>
      have closing : Heads (· ≠ .kwElse) (Part.block.production.behind.language * K) :=
        .of_starts rfl (by decide)
      refine .one (Locates.at (.bind (locates_declaration n (closing.allows _)) fun first =>
        .last (locates_blockRest n) fun _ => .pure _) t) (.of_starts rfl ?_)
      rintro k mem rfl
      simp_all

end

-- ---------------------------------------------------------------------------
-- Programs
-- ---------------------------------------------------------------------------

def wholePrograms : Language Kind :=
  programs * (Form.token .eof).language

/-- The kinds can be completed to a program. -/
def Viable (word : List Kind) : Prop :=
  ∃ more, word ++ more ∈ programs

/-- The first error that blocks stands where the tokens stop being the beginning of a program;
without one the tokens up to the end token are a program. -/
def Reading.Located (tokens : List Token) (r : Reading) : Prop :=
  match r.blocking with
  | [] => ∃ before last rest, tokens = before ++ last :: rest ∧ last.kind = .eof ∧
      kinds before ∈ programs
  | f :: _ => ∃ before t rest cause, tokens = before ++ t :: rest ∧ f = Finding.at t rest cause ∧
      Viable (kinds before) ∧ ∀ word, GoesOn word (t :: rest) → kinds before ++ word ∉ wholePrograms

theorem mem_language_last {word : List Kind} :
    word ∈ (Form.token .eof).language ↔ word = [.eof] := by
  rw [Form.mem_language_token]
  simp

theorem heads_wholePrograms : Heads (· ≠ .kwElse) wholePrograms := by
  refine .optional (by decide) fun word mem => ?_
  rw [mem_language_last.1 mem]
  exact ⟨.eof, rfl, by decide⟩

theorem mem_declaration_mul {t : Token} {rest : List Token} {word : List Kind} (ht : t.kind ≠ .eof)
    (goes : GoesOn word (t :: rest)) (mem : word ∈ wholePrograms) :
    word ∈ (Form.part .declaration).language * wholePrograms := by
  rw [wholePrograms, programs, Form.language_many, Form.language_either, add_mul, Language.mem_add,
    Form.language_both, mul_assoc, Form.language_empty, one_mul] at mem
  rcases mem with mem | mem
  · exact mem
  · rw [mem_language_last.1 mem] at goes
    exact absurd (Option.some.inj goes).symm ht

theorem kinds_append (a b : List Token) : kinds (a ++ b) = kinds a ++ kinds b :=
  List.map_append

section
variable {t : Token} {tokens stop after : List Token} {found : List Finding} {r : Reading}

theorem Reading.Located.read {s : Stmt} (h : r.Located after) (ht : t.kind ≠ .eof)
    (spent : Spent 1 (t :: tokens) after found)
    (locates : (Reply.read s after found).Locates (.part .declaration) wholePrograms
      (t :: tokens)) :
    (r.cons (some s) found).Located (t :: tokens) := by
  obtain ⟨taken, split, first, only⟩ := locates
  unfold Reading.Located at h ⊢
  rw [blocking_cons_of_spent spent, split]
  cases hb : r.blocking with
  | nil =>
    rw [hb] at h
    obtain ⟨before, last, more, rfl, hl, mem⟩ := h
    refine ⟨taken ++ before, last, more, (List.append_assoc ..).symm, hl, ?_⟩
    rw [kinds_append]
    exact Derives.more first mem
  | cons f others =>
    rw [hb] at h
    obtain ⟨before, u, more, cause, rfl, same, ⟨word, viable⟩, dead⟩ := h
    refine ⟨taken ++ before, u, more, cause, (List.append_assoc ..).symm, same, ⟨word, ?_⟩, ?_⟩
    · rw [kinds_append, List.append_assoc]
      exact Derives.more first viable
    · intro word goes mem
      have within := goes.append before
      have whole := within.append taken
      rw [← split] at whole
      rw [kinds_append, List.append_assoc] at mem
      exact dead word goes (only _ within (mem_declaration_mul ht whole mem))

theorem located_stuck (ht : t.kind ≠ .eof) (blocked : Blocked (t :: tokens) stop found)
    (locates : (Reply.stuck stop found : Reply Stmt).Locates (.part .declaration) wholePrograms
      (t :: tokens)) (r : Reading) : (r.cons none found).Located (t :: tokens) := by
  obtain ⟨taken, split, ⟨word, viable⟩, dead⟩ := locates
  obtain ⟨u, more, cause, rfl, blocking⟩ := blocking_cons_of_blocked blocked r
  unfold Reading.Located
  rw [blocking]
  have one : Derives (.many (.part .declaration)) (kinds taken ++ word ++ []) := .more viable .none
  refine ⟨taken, u, more, cause, split, rfl, ⟨word, by rwa [List.append_nil] at one⟩, ?_⟩
  intro word goes mem
  have whole := goes.append taken
  rw [← split] at whole
  exact dead word goes (mem_declaration_mul ht whole mem)

end

theorem program_located {n : Nat} {tokens : List Token} {r : Reading}
    (h : program n tokens = .ok r) :
    r.Located tokens := by
  induction n generalizing tokens r with
  | zero => cases h
  | succ n ih =>
    cases tokens with
    | nil => cases h
    | cons t tokens =>
      by_cases ht : t.kind = .eof
      · rw [program, if_pos ht] at h
        cases h
        exact ⟨[], t, tokens, rfl, ht, Derives.none⟩
      have accounts := spends_declaration n (t :: tokens)
      have locates := locates_declaration n (heads_wholePrograms.allows _) (t :: tokens)
      obtain ⟨s, after, found, r, read, rest, rfl⟩ | ⟨stop, found, after, r, stuck, -, -, rfl⟩ :=
        program_cases h ht
      · rw [read] at accounts locates
        exact (ih rest).read ht accounts locates
      · rw [stuck] at accounts locates
        exact located_stuck ht accounts locates r

theorem eq_of_end {tokens before rest : List Token} {last t : Token}
    (inside : ∀ t ∈ tokens, t.kind ≠ .eof) (split : tokens ++ [last] = before ++ t :: rest)
    (ht : t.kind = .eof) : before = tokens := by
  obtain ⟨left, same, rfl⟩ := append_singleton_of_ne_nil (List.cons_ne_nil t rest) split
  cases left with
  | nil => rw [List.append_nil]
  | cons u left =>
    cases same
    exact absurd ht (inside t (by simp))

/-- The first error that blocks is found at the first token that no program can have in its place:
the tokens before it are the beginning of a program, and with it they are not; at the end token they
are not a whole program. Without such an error the tokens are a program. -/
theorem first_error_located {tokens : List Token} {last : Token} (hl : last.kind = .eof)
    (inside : ∀ t ∈ tokens, t.kind ≠ .eof) (valued : ∀ t ∈ tokens, t.Valued) :
    ∃ r, parse (tokens ++ [last]) = .ok r ∧
      (r.blocking = [] → kinds tokens ∈ programs) ∧
      ∀ f others p, r.blocking = f :: others → p = f.position (tokens ++ [last]) →
        ∃ t cause, (tokens ++ [last])[p]? = some t ∧ f.error = GrammarError.at t cause ∧
          Viable (kinds ((tokens ++ [last]).take p)) ∧
          (t.kind ≠ .eof → ¬ Viable (kinds ((tokens ++ [last]).take (p + 1)))) ∧
          (t.kind = .eof → kinds tokens ∉ programs) := by
  obtain ⟨r, hr⟩ := parse_eq_ok (wellEnded_upToEnd hl inside valued)
  have located := program_located hr
  unfold Reading.Located at located
  refine ⟨r, hr, ?_, ?_⟩
  · intro none
    rw [none] at located
    obtain ⟨before, t, rest, split, ht, mem⟩ := located
    rwa [eq_of_end inside split ht] at mem
  · rintro f others _ blocking rfl
    rw [blocking] at located
    obtain ⟨before, t, rest, cause, split, rfl, viable, dead⟩ := located
    obtain ⟨left, -, here⟩ := append_singleton_of_ne_nil (List.cons_ne_nil t rest) split
    have position := Finding.position_at
      (fun u mem => inside u (here ▸ List.mem_append_left left mem)) t rest cause
    have with_it : (before ++ t :: rest).take (before.length + 1) = before ++ [t] := by
      rw [List.take_length_add_append]
      rfl
    rw [split, position, List.take_left, with_it]
    refine ⟨t, cause, by simp, rfl, viable, ?_, ?_⟩
    · rintro - ⟨more, mem⟩
      have ended := Language.append_mem_mul mem (mem_language_last.2 rfl)
      refine dead (t.kind :: (more ++ [.eof])) rfl ?_
      simpa [wholePrograms, kinds] using ended
    · intro ht mem
      rw [← eq_of_end inside split ht] at mem
      exact dead [.eof] (congrArg some ht.symm)
        (Language.append_mem_mul mem (mem_language_last.2 rfl))

def openGroup : List Token :=
  [⟨.kwPrint, "print", none, 1⟩, ⟨.leftParen, "(", none, 1⟩, ⟨.kwNil, "nil", none, 1⟩,
    ⟨.semicolon, ";", none, 1⟩]

theorem first_error_located_open_group :
    ∃ r f, parse (openGroup ++ [Token.atEnd 1]) = .ok r ∧ r.blocking = [f] ∧
      f.position (openGroup ++ [Token.atEnd 1]) = 3 ∧ Viable [.kwPrint, .leftParen, .kwNil] ∧
      ¬ Viable [.kwPrint, .leftParen, .kwNil, .semicolon] := by
  have valued : ∀ t ∈ openGroup, t.Valued := by
    simp only [openGroup, List.forall_mem_cons]
    exact ⟨⟨nofun, nofun⟩, ⟨nofun, nofun⟩, ⟨nofun, nofun⟩, ⟨nofun, nofun⟩, by simp⟩
  have last : (Token.atEnd 1).kind = .eof := rfl
  obtain ⟨r, read, -, located⟩ := first_error_located last (by decide) valued
  have concrete : parse (openGroup ++ [Token.atEnd 1]) = .ok _ := rfl
  obtain rfl := Except.ok.inj (read.symm.trans concrete)
  obtain ⟨t, cause, here, -, viable, dead, -⟩ := located _ [] 3 rfl rfl
  cases here
  exact ⟨_, _, concrete, rfl, rfl, viable, dead (by decide)⟩

end Lox.Grammar
