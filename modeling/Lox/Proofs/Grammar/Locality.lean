import Lox.Proofs.Grammar.Spending
import Lox.Proofs.Syntax.Lines

/-!
# What a rule reads depends on nothing else

A rule replies in the same way if other tokens follow what it took, if the tokens are on other
lines, and if it has more steps: it reads the same value or gets stuck at the same token, and it
notes the same errors. What follows matters by its first token only: a rule for expressions has to
see the same token there, and a rule for statements has to see an `else` there or not as before.
-/

namespace Lox

def GrammarError.relabel (g : Nat → Nat) (e : GrammarError) : GrammarError :=
  { e with line := g e.line }

namespace Grammar

variable {α β γ δ : Type}

/-- What may follow instead: something else whose first token is one that `E` relates. -/
inductive Follow (E : Token → Token → Prop) : List Token → List Token → Prop
  | intro {t t' : Token} {rest rest' : List Token} : E t t' → Follow E (t :: rest) (t' :: rest')

def Moved (g : Nat → Nat) (t t' : Token) : Prop :=
  t' = t.relabel g

def ElseAlike (t t' : Token) : Prop :=
  t.kind = .kwElse ↔ t'.kind = .kwElse

theorem moved_relabel (g : Nat → Nat) (t : Token) : Moved g t (t.relabel g) :=
  rfl

theorem elseAlike_relabel (g : Nat → Nat) (t : Token) : ElseAlike t (t.relabel g) :=
  Iff.rfl

section
variable {E : Token → Token → Prop} {g : Nat → Nat}

theorem Follow.append (hE : ∀ t, E t (t.relabel g)) {taken : List Token} (ht : taken ≠ [])
    (rest rest' : List Token) :
    Follow E (taken ++ rest) (taken.map (Token.relabel g) ++ rest') := by
  cases taken with
  | nil => exact absurd rfl ht
  | cons t taken => exact .intro (hE t)

theorem Follow.append_of_follow (hE : ∀ t, E t (t.relabel g)) (taken : List Token)
    {rest rest' : List Token} (h : Follow E rest rest') :
    Follow E (taken ++ rest) (taken.map (Token.relabel g) ++ rest') := by
  by_cases ht : taken = []
  · subst ht
    exact h
  · exact .append hE ht rest rest'

theorem Follow.of_moved (hE : ∀ t, E t (t.relabel g)) {rest rest' : List Token}
    (h : Follow (Moved g) rest rest') : Follow E rest rest' := by
  cases h with
  | intro moved => exact .intro (moved ▸ hE _)

end

/-- The same errors on other lines. -/
def SameErrors (g : Nat → Nat) (findings findings' : List Finding) : Prop :=
  findings'.map Finding.error = findings.map fun f => f.error.relabel g

theorem SameErrors.nil (g : Nat → Nat) : SameErrors g [] [] :=
  rfl

theorem SameErrors.append {g : Nat → Nat} {a a' b b' : List Finding} (ha : SameErrors g a a')
    (hb : SameErrors g b b') : SameErrors g (a ++ b) (a' ++ b') := by
  rw [SameErrors, List.map_append, List.map_append, ha, hb]

theorem SameErrors.eq_nil {g : Nat → Nat} {findings : List Finding} (h : SameErrors g [] findings) :
    findings = [] :=
  List.map_eq_nil_iff.1 h

/-- Another rule replies in this way to the tokens taken, on other lines and whatever follows them;
`taking` says that something is taken if something is read. -/
def Reply.LocalTo (E : Token → Token → Prop) (taking : Bool) (g : Nat → Nat) (φ : α → β)
    (y : Rule β) (tokens : List Token) : Reply α → Prop
  | .read value rest findings =>
    ∃ taken, tokens = taken ++ rest ∧ (taking = true → taken ≠ []) ∧
      ∀ rest', Follow E rest rest' → ∃ findings', SameErrors g findings findings' ∧
        y (taken.map (Token.relabel g) ++ rest') = .read (φ value) rest' findings'
  | .stuck rest findings =>
    ∃ taken, tokens = taken ++ rest ∧
      ∀ rest', Follow (Moved g) rest rest' → ∃ findings', SameErrors g findings findings' ∧
        y (taken.map (Token.relabel g) ++ rest') = .stuck rest' findings'
  | .broken _ => True

namespace Rule

/-- The second rule replies as the first one does to these tokens. -/
def LocalAt (E : Token → Token → Prop) (taking : Bool) (g : Nat → Nat) (φ : α → β) (x : Rule α)
    (y : Rule β) (tokens : List Token) : Prop :=
  (x tokens).LocalTo E taking g φ y tokens

def Local (E : Token → Token → Prop) (taking : Bool) (g : Nat → Nat) (φ : α → β) (x : Rule α)
    (y : Rule β) : Prop :=
  ∀ tokens, LocalAt E taking g φ x y tokens

theorem bind_eq_read {x : Rule α} {f : α → Rule β} {tokens rest : List Token} {value : β}
    (h : (x >>= f) tokens = .read value rest []) :
    ∃ a middle, x tokens = .read a middle [] ∧ f a middle = .read value rest [] := by
  rw [bind_apply] at h
  cases hx : x tokens with
  | read a middle noted =>
    rw [hx] at h
    dsimp only at h
    cases hf : f a middle with
    | read b rest' findings =>
      rw [hf] at h
      injection h with hb hr hn
      obtain ⟨rfl, rfl⟩ := List.append_eq_nil_iff.1 hn
      exact ⟨a, middle, rfl, by rw [hf, hb, hr]⟩
    | stuck | broken =>
      rw [hf] at h
      cases h
  | stuck | broken =>
    rw [hx] at h
    cases h

theorem bind_of_read {x : Rule α} {f : α → Rule β} {tokens middle : List Token} {a : α}
    (h : x tokens = .read a middle []) : (x >>= f) tokens = f a middle := by
  rw [bind_apply, h]
  exact Reply.after_nil _

section
variable {E : Token → Token → Prop} {taking : Bool} {g : Nat → Nat} {φ : α → β} {ψ : γ → δ}

theorem LocalAt.read {x : Rule α} {y : Rule β} {tokens rest : List Token} {value : α}
    (h : LocalAt E taking g φ x y tokens) (read : x tokens = .read value rest []) :
    ∃ taken, tokens = taken ++ rest ∧ (taking = true → taken ≠ []) ∧
      ∀ rest', Follow E rest rest' →
        y (taken.map (Token.relabel g) ++ rest') = .read (φ value) rest' [] := by
  rw [LocalAt, read] at h
  obtain ⟨taken, split, nonempty, again⟩ := h
  refine ⟨taken, split, nonempty, fun rest' follow => ?_⟩
  obtain ⟨findings', same, read'⟩ := again rest' follow
  rw [read', same.eq_nil]

theorem Local.fail (fault : Fault) (y : Rule β) : Local E taking g φ (fail fault) y :=
  fun _ => trivial

theorem Local.pure (a : α) : Local E false g φ (Pure.pure a) (Pure.pure (φ a)) :=
  fun _ => ⟨[], rfl, by simp, fun _ _ => ⟨[], .nil g, rfl⟩⟩

theorem Local.note {f f' : Finding} (hf : f'.error = f.error.relabel g) :
    Local E false g (fun _ => ()) (note f) (note f') :=
  fun _ => ⟨[], rfl, by simp, fun _ _ => ⟨[f'], by simp [SameErrors, hf], rfl⟩⟩

theorem Local.stuck (cause : GrammarCause) :
    Local E taking g φ (stuck cause : Rule α) (stuck cause : Rule β) := by
  intro tokens
  cases tokens with
  | nil => trivial
  | cons t tokens =>
    refine ⟨[], rfl, fun rest' follow => ?_⟩
    cases follow with
    | intro moved =>
      cases moved
      refine ⟨[⟨GrammarError.at (t.relabel g) cause, _⟩], ?_, rfl⟩
      rfl

/-- A step behind another one. What follows the second step has to make up for what the first one
asks of its follower, unless something is taken in between. -/
theorem LocalAt.bindWith {E' : Token → Token → Prop} {more : Bool} {x : Rule α} {y : Rule β}
    {f : α → Rule γ} {h : β → Rule δ} {tokens : List Token} (hE : ∀ t, E t (t.relabel g))
    (join : ∀ next rest rest', (more = true → next ≠ []) → Follow E' rest rest' →
      Follow E (next ++ rest) (next.map (Token.relabel g) ++ rest'))
    (hx : LocalAt E taking g φ x y tokens) (hf : ∀ a, Local E' more g ψ (f a) (h (φ a))) :
    LocalAt E' (taking || more) g ψ (x >>= f) (y >>= h) tokens := by
  unfold LocalAt at hx ⊢
  rw [bind_apply]
  cases hr : x tokens with
  | read a middle noted =>
    rw [hr] at hx
    obtain ⟨taken, rfl, nonempty, again⟩ := hx
    have second := hf a middle
    unfold LocalAt at second
    dsimp only
    cases hs : f a middle with
    | read b rest findings =>
      rw [hs] at second
      obtain ⟨next, rfl, nonempty', again'⟩ := second
      refine ⟨taken ++ next, (List.append_assoc ..).symm, fun some_taken => ?_,
        fun rest' follow => ?_⟩
      · rcases (Bool.or_eq_true _ _).mp some_taken with ht | ht
        · exact List.append_ne_nil_of_left_ne_nil (nonempty ht) _
        · exact List.append_ne_nil_of_right_ne_nil _ (nonempty' ht)
      · obtain ⟨noted', same, first⟩ := again _ (join next rest rest' nonempty' follow)
        obtain ⟨findings', same', last⟩ := again' rest' follow
        refine ⟨noted' ++ findings', same.append same', ?_⟩
        rw [List.map_append, List.append_assoc, bind_apply, first]
        dsimp only
        rw [last]
        rfl
    | stuck rest findings =>
      rw [hs] at second
      obtain ⟨next, rfl, again'⟩ := second
      refine ⟨taken ++ next, (List.append_assoc ..).symm, fun rest' follow => ?_⟩
      obtain ⟨noted', same, first⟩ := again _ (.append_of_follow hE next (follow.of_moved hE))
      obtain ⟨findings', same', last⟩ := again' rest' follow
      refine ⟨noted' ++ findings', same.append same', ?_⟩
      rw [List.map_append, List.append_assoc, bind_apply, first]
      dsimp only
      rw [last]
      rfl
    | broken fault => trivial
  | stuck rest findings =>
    rw [hr] at hx
    obtain ⟨taken, rfl, again⟩ := hx
    refine ⟨taken, rfl, fun rest' follow => ?_⟩
    obtain ⟨findings', same, last⟩ := again rest' follow
    exact ⟨findings', same, by rw [bind_apply, last]⟩
  | broken fault => trivial

theorem LocalAt.bind {more : Bool} (hE : ∀ t, E t (t.relabel g)) {x : Rule α} {y : Rule β}
    {f : α → Rule γ} {h : β → Rule δ} {tokens : List Token} (hx : LocalAt E taking g φ x y tokens)
    (hf : ∀ a, Local E more g ψ (f a) (h (φ a))) :
    LocalAt E (taking || more) g ψ (x >>= f) (y >>= h) tokens :=
  .bindWith hE (fun next _ _ _ follow => .append_of_follow hE next follow) hx hf

theorem LocalAt.before {x : Rule α} {y : Rule β} {f : α → Rule γ} {h : β → Rule δ}
    {tokens : List Token} (hx : LocalAt (Moved g) taking g φ x y tokens)
    (hf : ∀ a, Local E true g ψ (f a) (h (φ a))) :
    LocalAt E true g ψ (x >>= f) (y >>= h) tokens := by
  have separated (next rest rest' : List Token) (nonempty : true = true → next ≠ []) :
      Follow (Moved g) (next ++ rest) (next.map (Token.relabel g) ++ rest') :=
    .append (moved_relabel g) (nonempty rfl) rest rest'
  simpa using bindWith (moved_relabel g) (fun _ _ _ nonempty _ => separated _ _ _ nonempty) hx hf

/-! The first token: its kind decides, and taking it leaves what follows. -/

theorem LocalAt.any {x : Rule α} {y : Rule β} {tokens : List Token}
    (h : LocalAt E taking g φ x y tokens) : LocalAt E false g φ x y tokens := by
  unfold LocalAt at h ⊢
  cases hr : x tokens with
  | read value rest findings =>
    rw [hr] at h
    obtain ⟨taken, split, -, again⟩ := h
    exact ⟨taken, split, by simp, again⟩
  | stuck rest findings =>
    rw [hr] at h
    exact h
  | broken fault => trivial

theorem Local.any {x : Rule α} {y : Rule β} (h : Local E taking g φ x y) :
    Local E false g φ x y :=
  fun tokens => (h tokens).any

theorem LocalAt.ofFirst {x : Rule α} {y y' : Rule β} {t : Token} {tokens : List Token}
    (h : LocalAt E taking g φ x y (t :: tokens))
    (same : ∀ t' rest', t' = t.relabel g ∨ taking = false ∧ E t t' →
      y' (t' :: rest') = y (t' :: rest')) :
    LocalAt E taking g φ x y' (t :: tokens) := by
  have first {taken rest rest' : List Token} {E' : Token → Token → Prop}
      (split : t :: tokens = taken ++ rest) (follow : Follow E' rest rest')
      (none_taken : taken = [] → ∀ t', E' t t' → t' = t.relabel g ∨ taking = false ∧ E t t') :
      y' (taken.map (Token.relabel g) ++ rest') = y (taken.map (Token.relabel g) ++ rest') := by
    cases taken with
    | cons u taken =>
      cases split
      exact same _ _ (.inl rfl)
    | nil =>
      cases follow with
      | intro related =>
        cases split
        exact same _ _ (none_taken rfl _ related)
  unfold LocalAt at h ⊢
  cases hr : x (t :: tokens) with
  | read value rest findings =>
    rw [hr] at h
    obtain ⟨taken, split, nonempty, again⟩ := h
    refine ⟨taken, split, nonempty, fun rest' follow => ?_⟩
    rw [first split follow fun none_taken t' related =>
      .inr ⟨Bool.eq_false_iff.2 fun ht => nonempty ht none_taken, related⟩]
    exact again rest' follow
  | stuck rest findings =>
    rw [hr] at h
    obtain ⟨taken, split, again⟩ := h
    refine ⟨taken, split, fun rest' follow => ?_⟩
    rw [first split follow fun _ _ moved => .inl moved]
    exact again rest' follow
  | broken fault => trivial

theorem Local.peek {f : Token → Rule α} {h : Token → Rule β} (hE : taking = true ∨ E = Moved g)
    (hf : ∀ t tokens, LocalAt E taking g φ (f t) (h (t.relabel g)) (t :: tokens)) :
    Local E taking g φ (peek >>= f) (peek >>= h) := by
  intro tokens
  cases tokens with
  | nil => trivial
  | cons t tokens =>
    have here : LocalAt E taking g φ (f t) (Rule.peek >>= h) (t :: tokens) := by
      refine (hf t tokens).ofFirst fun t' rest' known => ?_
      obtain rfl : t' = t.relabel g := by
        rcases known with rfl | ⟨ht, related⟩
        · rfl
        · rcases hE with hE | rfl
          · cases ht.symm.trans hE
          · exact related
      exact peek_bind ..
    unfold LocalAt at here ⊢
    rw [peek_bind]
    exact here

theorem Local.whenAt {kind : Kind}
    (hE : taking = true ∨ ∀ t t', E t t' → (t.kind = kind ↔ t'.kind = kind))
    {x x' : Rule α} {y y' : Rule β} (hx : ∀ t tokens, t.kind = kind →
      LocalAt E taking g φ x y (t :: tokens)) (hx' : Local E taking g φ x' y') :
    Local E taking g φ (Rule.check kind >>= fun found => if found = true then x else x')
      (Rule.check kind >>= fun found => if found = true then y else y') := by
  intro tokens
  cases tokens with
  | nil => trivial
  | cons t tokens =>
    have branch : LocalAt E taking g φ (if decide (t.kind = kind) = true then x else x')
        (if decide (t.kind = kind) = true then y else y') (t :: tokens) := by
      by_cases ht : t.kind = kind
      · rw [if_pos (decide_eq_true ht), if_pos (decide_eq_true ht)]
        exact hx t tokens ht
      · rw [if_neg (by simpa using ht), if_neg (by simpa using ht)]
        exact hx' (t :: tokens)
    have here : LocalAt E taking g φ (if decide (t.kind = kind) = true then x else x')
        (Rule.check kind >>= fun found => if found = true then y else y') (t :: tokens) := by
      refine branch.ofFirst fun t' rest' known => ?_
      have alike : t.kind = kind ↔ t'.kind = kind := by
        rcases known with rfl | ⟨ht, related⟩
        · rfl
        · rcases hE with hE | hE
          · cases ht.symm.trans hE
          · exact hE t t' related
      rw [check_bind, decide_eq_decide.2 alike]
    unfold LocalAt at here ⊢
    rw [check_bind]
    exact here

theorem LocalAt.advance {f : Token → Rule α} {h : Token → Rule β} {t : Token} {tokens : List Token}
    (ht : t.kind ≠ .eof) (hf : Local E false g φ (f t) (h (t.relabel g))) :
    LocalAt E true g φ (advance >>= f) (advance >>= h) (t :: tokens) := by
  have taken_first (taken rest' : List Token) :
      (Rule.advance >>= h) ((t :: taken).map (Token.relabel g) ++ rest') =
        h (t.relabel g) (taken.map (Token.relabel g) ++ rest') := by
    rw [List.map_cons, List.cons_append, advance_bind, Token.kind_relabel, if_neg ht]
  have here := hf tokens
  unfold LocalAt at here ⊢
  rw [advance_bind, if_neg ht]
  cases hr : f t tokens with
  | read value rest findings =>
    rw [hr] at here
    obtain ⟨taken, rfl, -, again⟩ := here
    refine ⟨t :: taken, rfl, fun _ => List.cons_ne_nil _ _, fun rest' follow => ?_⟩
    rw [taken_first]
    exact again rest' follow
  | stuck rest findings =>
    rw [hr] at here
    obtain ⟨taken, rfl, again⟩ := here
    refine ⟨t :: taken, rfl, fun rest' follow => ?_⟩
    rw [taken_first]
    exact again rest' follow
  | broken fault => trivial

theorem Local.expect {kind : Kind} (hk : kind ≠ .eof) (what : String) :
    Local E true g (Token.relabel g) (expect kind what) (expect kind what) := by
  intro tokens
  cases tokens with
  | nil => trivial
  | cons t tokens =>
    have branch : LocalAt E true g (Token.relabel g)
        (if t.kind = kind then Rule.advance else Rule.stuck (.expected what))
        (if t.kind = kind then Rule.advance else Rule.stuck (.expected what)) (t :: tokens) := by
      split
      · next ht =>
        have ne : t.kind ≠ .eof := ht ▸ hk
        unfold LocalAt
        rw [Rule.advance, if_neg ne]
        refine ⟨[t], rfl, fun _ => List.cons_ne_nil _ _, fun rest' _ => ⟨[], .nil g, ?_⟩⟩
        simp [Rule.advance, ne]
      · exact Local.stuck (.expected what) (t :: tokens)
    have here : LocalAt E true g (Token.relabel g)
        (if t.kind = kind then Rule.advance else Rule.stuck (.expected what))
        (Rule.expect kind what)
        (t :: tokens) := by
      refine branch.ofFirst fun t' rest' known => ?_
      obtain rfl : t' = t.relabel g := by
        rcases known with rfl | ⟨ht, -⟩
        · rfl
        · cases ht
      rw [expect_cons, Token.kind_relabel]
      split <;> rfl
    unfold LocalAt at here ⊢
    rw [expect_cons]
    split <;> simp_all

theorem LocalAt.finding {f : Finding → Rule α} {h : Finding → Rule β} (cause : GrammarCause)
    {t : Token} {tokens : List Token}
    (hf : ∀ a b, b.error = a.error.relabel g →
      LocalAt (Moved g) taking g φ (f a) (h b) (t :: tokens)) :
    LocalAt (Moved g) taking g φ (finding cause >>= f) (finding cause >>= h) (t :: tokens) := by
  -- What is found in the other tokens has another position, so what was taken is compared for each.
  have found {taken rest rest' : List Token} (split : t :: tokens = taken ++ rest)
      (follow : Follow (Moved g) rest rest') :
      ∃ b : Finding, b.error = (GrammarError.at t cause).relabel g ∧
        (Rule.finding cause >>= h) (taken.map (Token.relabel g) ++ rest') =
          h b (taken.map (Token.relabel g) ++ rest') := by
    obtain ⟨more, same⟩ : ∃ more, taken.map (Token.relabel g) ++ rest' = t.relabel g :: more := by
      cases taken with
      | nil =>
        cases follow with
        | intro moved =>
          cases split
          exact ⟨_, by rw [moved]; rfl⟩
      | cons u taken =>
        cases split
        exact ⟨_, rfl⟩
    rw [same]
    exact ⟨⟨GrammarError.at (t.relabel g) cause, _⟩, rfl, bind_of_read rfl⟩
  let a : Finding := ⟨GrammarError.at t cause, beforeEnd (t :: tokens)⟩
  have here : (Rule.finding cause >>= f) (t :: tokens) = f a (t :: tokens) := bind_of_read rfl
  have some_split := hf a ⟨a.error.relabel g, 0⟩ rfl
  unfold LocalAt at hf some_split ⊢
  rw [here]
  cases hr : f a (t :: tokens) with
  | read value rest findings =>
    rw [hr] at some_split
    obtain ⟨taken, split, nonempty, -⟩ := some_split
    refine ⟨taken, split, nonempty, fun rest' follow => ?_⟩
    obtain ⟨b, error, run⟩ := found split follow
    have twin := hf a b error
    rw [hr] at twin
    obtain ⟨taken', split', -, again⟩ := twin
    cases List.append_cancel_right (split.symm.trans split')
    rw [run]
    exact again rest' follow
  | stuck rest findings =>
    rw [hr] at some_split
    obtain ⟨taken, split, -⟩ := some_split
    refine ⟨taken, split, fun rest' follow => ?_⟩
    obtain ⟨b, error, run⟩ := found split follow
    have twin := hf a b error
    rw [hr] at twin
    obtain ⟨taken', split', again⟩ := twin
    cases List.append_cancel_right (split.symm.trans split')
    rw [run]
    exact again rest' follow
  | broken fault => trivial

theorem Local.noteHereIf (wrong : Bool) (cause : GrammarCause) :
    Local (Moved g) false g (fun _ => ()) (noteHereIf wrong cause) (noteHereIf wrong cause) := by
  intro tokens
  cases wrong with
  | true =>
    cases tokens with
    | nil => trivial
    | cons t tokens => exact .finding cause fun _ _ error => Local.note error _
  | false => exact Local.pure () tokens

theorem Local.unlessAt {x : Rule α} {y : Rule β} (kind : Kind) (absent : α)
    (hx : Local (Moved g) false g φ x y) :
    Local (Moved g) false g φ (unlessAt kind absent x) (unlessAt kind (φ absent) y) :=
  .whenAt (.inr fun _ _ moved => by rw [moved]; rfl)
    (fun t tokens _ => Local.pure absent (t :: tokens)) hx

theorem Local.following {x : Rule α} {y : Rule β} {kind : Kind} (hk : kind ≠ .eof)
    (hE : ∀ t, E t (t.relabel g)) (hE' : ∀ t t', E t t' → (t.kind = kind ↔ t'.kind = kind))
    (hx : Local E taking g φ x y) :
    Local E false g (Option.map φ) (following kind x) (following kind y) := by
  refine .whenAt (.inr hE') (fun t tokens ht => ?_) (.pure none)
  refine (LocalAt.advance (ht ▸ hk) fun tokens => ?_).any
  exact LocalAt.bind hE (hx.any tokens) fun a => .pure (some a)

/-! The rules for expressions ask for the same token behind them. -/

theorem Local.andThen {x : Rule α} {y : Rule β} {f : α → Rule γ} {h : β → Rule δ}
    (hx : Local (Moved g) taking g φ x y) (hf : ∀ a, Local (Moved g) false g ψ (f a) (h (φ a))) :
    Local (Moved g) false g ψ (x >>= f) (y >>= h) :=
  fun tokens => ((hx tokens).bind (moved_relabel g) hf).any

theorem Local.onlyAt {kind : Kind} {x x' : Rule α} {y y' : Rule β}
    (hx : ∀ t tokens, t.kind = kind → LocalAt (Moved g) false g φ x y (t :: tokens))
    (hx' : Local (Moved g) false g φ x' y') :
    Local (Moved g) false g φ (Rule.check kind >>= fun found => if found = true then x else x')
      (Rule.check kind >>= fun found => if found = true then y else y') :=
  .whenAt (.inr fun _ _ moved => by rw [moved]; rfl) hx hx'

/-! The rules for statements take something, and ask only whether an `else` stands behind them. -/

theorem Local.before {x : Rule α} {y : Rule β} {f : α → Rule γ} {h : β → Rule δ}
    (hx : Local (Moved g) taking g φ x y) (hf : ∀ a, Local ElseAlike true g ψ (f a) (h (φ a))) :
    Local ElseAlike true g ψ (x >>= f) (y >>= h) :=
  fun tokens => (hx tokens).before hf

theorem Local.first {x : Rule α} {y : Rule β} {f : α → Rule γ} {h : β → Rule δ}
    (hx : Local ElseAlike true g φ x y) (hf : ∀ a, Local ElseAlike false g ψ (f a) (h (φ a))) :
    Local ElseAlike true g ψ (x >>= f) (y >>= h) :=
  fun tokens => (hx tokens).bind (elseAlike_relabel g) hf

theorem Local.strict {x : Rule α} {y : Rule β} (h : Local ElseAlike taking g φ x y) :
    Local (Moved g) taking g φ x y := by
  intro tokens
  have here := h tokens
  unfold LocalAt at here ⊢
  cases hr : x tokens with
  | read value rest findings =>
    rw [hr] at here
    obtain ⟨taken, split, nonempty, again⟩ := here
    exact ⟨taken, split, nonempty, fun rest' follow =>
      again rest' (follow.of_moved (elseAlike_relabel g))⟩
  | stuck rest findings =>
    rw [hr] at here
    exact here
  | broken fault => trivial

end

end Rule

open Rule (Local LocalAt)

-- ---------------------------------------------------------------------------
-- Expressions
-- ---------------------------------------------------------------------------

theorem Level.join_relabel (g : Nat → Nat) (level : Level) (left : Expr) (operator : Token)
    (right : Expr) : (level.join left operator right).relabel g =
      level.join (left.relabel g) (operator.relabel g) (right.relabel g) := by
  cases level <;> rfl

section
variable {g : Nat → Nat}

mutual

theorem local_expression : ∀ {n n' : Nat}, n ≤ n' →
    Local (Moved g) false g (Expr.relabel g) (expression n) (expression n')
  | 0, _, _ => .fail _ _
  | n + 1, n' + 1, h => by
    have h := Nat.le_of_succ_le_succ h
    refine .andThen (local_operation h _) fun left => ?_
    refine .onlyAt (fun t tokens ht => ?_) (.pure left)
    refine .finding _ fun wrong wrong' error => (LocalAt.advance (by simp [ht]) ?_).any
    refine .andThen (local_expression h) fun value => ?_
    cases left with
    | «variable» name depth => exact .pure (Expr.assign name value none)
    | _ => exact .andThen (.note error) fun _ => .pure _

theorem local_operation : ∀ {n n' : Nat}, n ≤ n' → ∀ levels : List Level,
    Local (Moved g) false g (Expr.relabel g) (operation n levels) (operation n' levels)
  | 0, _, _, _ => .fail _ _
  | n + 1, n' + 1, h, [] => local_unary (Nat.le_of_succ_le_succ h)
  | n + 1, n' + 1, h, _ :: tighter =>
    .andThen (local_operation (Nat.le_of_succ_le_succ h) tighter) fun _ =>
      local_operationRest (Nat.le_of_succ_le_succ h) _ tighter _

theorem local_operationRest : ∀ {n n' : Nat}, n ≤ n' → ∀ (level : Level) (tighter : List Level)
    (left : Expr), Local (Moved g) false g (Expr.relabel g) (operationRest n level tighter left)
      (operationRest n' level tighter (left.relabel g))
  | 0, _, _, _, _, _ => .fail _ _
  | n + 1, n' + 1, h, level, tighter, left => by
    have h := Nat.le_of_succ_le_succ h
    refine .peek (.inr rfl) fun t tokens => ?_
    rw [Token.kind_relabel]
    split
    · next ht =>
      refine (LocalAt.advance (ne_eof_of_operates ht) ?_).any
      refine .andThen (local_operation h tighter) fun right => ?_
      rw [← Level.join_relabel]
      exact local_operationRest h level tighter _
    · exact Local.pure left _

theorem local_unary : ∀ {n n' : Nat}, n ≤ n' →
    Local (Moved g) false g (Expr.relabel g) (unary n) (unary n')
  | 0, _, _ => .fail _ _
  | n + 1, n' + 1, h => by
    have h := Nat.le_of_succ_le_succ h
    refine .peek (.inr rfl) fun t tokens => ?_
    rw [Token.kind_relabel]
    split
    · next ht =>
      refine (LocalAt.advance (ne_eof_of_isUnary ht) ?_).any
      exact .andThen (local_unary h) fun operand => .pure (Expr.unary t operand)
    · exact Local.andThen (local_primary h) (fun callee => local_callRest h callee) _

theorem local_callRest : ∀ {n n' : Nat}, n ≤ n' → ∀ callee : Expr,
    Local (Moved g) false g (Expr.relabel g) (callRest n callee) (callRest n' (callee.relabel g))
  | 0, _, _, _ => .fail _ _
  | n + 1, n' + 1, h, callee => by
    have h := Nat.le_of_succ_le_succ h
    refine .onlyAt (fun t tokens ht => ?_) (.pure callee)
    refine (LocalAt.advance (by simp [ht]) ?_).any
    refine .andThen (.unlessAt _ _ (local_arguments h 0)) fun given => ?_
    exact .andThen (.expect (by decide) _) fun paren => local_callRest h (.call callee paren given)

theorem local_arguments : ∀ {n n' : Nat}, n ≤ n' → ∀ count : Nat,
    Local (Moved g) false g (Expr.relabelList g) (arguments n count) (arguments n' count)
  | 0, _, _, _ => .fail _ _
  | n + 1, n' + 1, h, count => by
    have h := Nat.le_of_succ_le_succ h
    refine .andThen (.noteHereIf _ _) fun _ => .andThen (local_expression h) fun first => ?_
    refine .onlyAt (fun t tokens ht => ?_) (.pure [first])
    refine (LocalAt.advance (by simp [ht]) ?_).any
    exact .andThen (local_arguments h _) fun rest => .pure (first :: rest)

theorem local_primary : ∀ {n n' : Nat}, n ≤ n' →
    Local (Moved g) false g (Expr.relabel g) (primary n) (primary n')
  | 0, _, _ => .fail _ _
  | n + 1, n' + 1, h => by
    have h := Nat.le_of_succ_le_succ h
    refine .peek (.inr rfl) fun t tokens => ?_
    rw [Token.kind_relabel]
    split
    · next ht =>
      refine (LocalAt.advance (ne_eof_of_isLiteral ht) ?_).any
      have same : Constant.ofToken? (t.relabel g) = Constant.ofToken? t := rfl
      rw [same]
      cases Constant.ofToken? t with
      | some value => exact .pure (Expr.literal value)
      | none => exact .fail _ _
    split
    · next ht => exact (LocalAt.advance (by simp [ht]) (.pure (Expr.variable t none))).any
    split
    · next ht =>
      refine (LocalAt.advance (by simp [ht]) ?_).any
      refine .andThen (local_expression h) fun inner => ?_
      exact .andThen (.expect (by decide) _) fun _ => .pure (Expr.grouping inner)
    · exact Local.stuck _ _

end

-- ---------------------------------------------------------------------------
-- Statements
-- ---------------------------------------------------------------------------

theorem forLoop_relabel (initializer : Option Stmt) (condition increment : Option Expr)
    (body : Stmt) : (forLoop initializer condition increment body).relabel g =
      forLoop (initializer.map (Stmt.relabel g)) (condition.map (Expr.relabel g))
        (increment.map (Expr.relabel g)) (body.relabel g) := by
  cases initializer <;> cases condition <;> cases increment <;> rfl

theorem local_parameters : ∀ {n n' : Nat}, n ≤ n' → ∀ count : Nat,
    Local (Moved g) false g (List.map (Token.relabel g)) (parameters n count) (parameters n' count)
  | 0, _, _, _ => .fail _ _
  | n + 1, n' + 1, h, count => by
    have h := Nat.le_of_succ_le_succ h
    refine .andThen (.noteHereIf _ _) fun _ => .andThen (.expect (by decide) _) fun first => ?_
    refine .onlyAt (fun t tokens ht => ?_) (.pure [first])
    refine (LocalAt.advance (by simp [ht]) ?_).any
    exact .andThen (local_parameters h _) fun rest => .pure (first :: rest)

section
variable {n n' : Nat} (h : n ≤ n')
include h

theorem local_optionalBefore (kind : Kind) :
    Local (Moved g) false g (Option.map (Expr.relabel g)) (optionalBefore kind n)
    (optionalBefore kind n') :=
  .unlessAt _ _ (.andThen (local_expression h) fun e => .pure (some e))

theorem local_variableRest :
    Local ElseAlike true g (Stmt.relabel g) (variableRest n) (variableRest n') := by
  refine .before (.expect (by decide) _) fun name => ?_
  refine .before (.following (by decide) (fun _ => rfl) (fun _ _ moved => by rw [moved]; rfl)
    (local_expression h)) fun initializer => ?_
  exact .first (.expect (by decide) _) fun _ => .pure (Stmt.variable name initializer)

theorem local_expressionStatement :
    Local ElseAlike true g (Stmt.relabel g) (expressionStatement n) (expressionStatement n') :=
  .before (local_expression h) fun value =>
    .first (.expect (by decide) _) fun _ => .pure (Stmt.expression value)

theorem local_firstClause :
    Local ElseAlike true g (Option.map (Stmt.relabel g)) (firstClause n) (firstClause n') := by
  have wrapped {x y : Rule Stmt} (hx : Local ElseAlike true g (Stmt.relabel g) x y) :
      Local ElseAlike true g (Option.map (Stmt.relabel g)) (some <$> x) (some <$> y) :=
    .first hx fun t => .pure (some t)
  refine .peek (.inl rfl) fun t tokens => ?_
  rw [Token.kind_relabel]
  split
  · next ht => exact .advance (by simp [ht]) (.pure none)
  split
  · next ht => exact .advance (by simp [ht]) (wrapped (local_variableRest h)).any
  · exact wrapped (local_expressionStatement h) _

end

mutual

theorem local_declaration : ∀ {n n' : Nat}, n ≤ n' →
    Local ElseAlike true g (Stmt.relabel g) (declaration n) (declaration n')
  | 0, _, _ => .fail _ _
  | n + 1, n' + 1, h => by
    have h := Nat.le_of_succ_le_succ h
    refine .peek (.inl rfl) fun t tokens => ?_
    rw [Token.kind_relabel]
    split
    · next ht => exact .advance (by simp [ht]) (local_functionRest h).any
    split
    · next ht => exact .advance (by simp [ht]) (local_variableRest h).any
    · exact local_statement h _

theorem local_functionRest : ∀ {n n' : Nat}, n ≤ n' →
    Local ElseAlike true g (Stmt.relabel g) (functionRest n) (functionRest n')
  | 0, _, _ => .fail _ _
  | n + 1, n' + 1, h => by
    have h := Nat.le_of_succ_le_succ h
    refine .before (.expect (by decide) _) fun name => .before (.expect (by decide) _) fun _ => ?_
    refine .before (.unlessAt _ _ (local_parameters h 0)) fun names => ?_
    refine .before (.expect (by decide) _) fun _ => .before (.expect (by decide) _) fun _ => ?_
    exact .first (local_blockRest h) fun body => .pure (Stmt.function name names body)

theorem local_statement : ∀ {n n' : Nat}, n ≤ n' →
    Local ElseAlike true g (Stmt.relabel g) (statement n) (statement n')
  | 0, _, _ => .fail _ _
  | n + 1, n' + 1, h => by
    have h := Nat.le_of_succ_le_succ h
    refine .peek (.inl rfl) fun t tokens => ?_
    rw [Token.kind_relabel]
    cases ht : t.kind with
    | kwFor => exact .advance (by simp [ht]) (local_forRest h).any
    | kwIf => exact .advance (by simp [ht]) (local_ifRest h).any
    | kwPrint =>
      refine .advance (by simp [ht]) (Local.any (.before (local_expression h) fun value => ?_))
      exact .first (.expect (by decide) _) fun _ => .pure (Stmt.print value)
    | kwReturn =>
      refine .advance (by simp [ht])
        (Local.any (.before (local_optionalBefore h _) fun value => ?_))
      exact .first (.expect (by decide) _) fun _ => .pure (Stmt.return t value)
    | kwWhile =>
      refine .advance (by simp [ht]) (Local.any (.before (.expect (by decide) _) fun _ => ?_))
      refine .before (local_expression h) fun condition =>
        .before (.expect (by decide) _) fun _ => ?_
      exact .first (local_statement h) fun body => .pure (Stmt.loop condition body)
    | leftBrace =>
      refine .advance (by simp [ht]) (Local.any (.first (local_blockRest h) fun body => ?_))
      exact .pure (Stmt.block body)
    | _ => exact local_expressionStatement h _

theorem local_forRest : ∀ {n n' : Nat}, n ≤ n' →
    Local ElseAlike true g (Stmt.relabel g) (forRest n) (forRest n')
  | 0, _, _ => .fail _ _
  | n + 1, n' + 1, h => by
    have h := Nat.le_of_succ_le_succ h
    refine .before (.expect (by decide) _) fun _ => ?_
    refine .before (local_firstClause h).strict fun initializer => ?_
    refine .before (local_optionalBefore h _) fun condition =>
      .before (.expect (by decide) _) fun _ => ?_
    refine .before (local_optionalBefore h _) fun increment =>
      .before (.expect (by decide) _) fun _ => ?_
    refine .first (local_statement h) fun body => ?_
    rw [← forLoop_relabel]
    exact .pure (forLoop initializer condition increment body)

theorem local_ifRest : ∀ {n n' : Nat}, n ≤ n' →
    Local ElseAlike true g (Stmt.relabel g) (ifRest n) (ifRest n')
  | 0, _, _ => .fail _ _
  | n + 1, n' + 1, h => by
    have h := Nat.le_of_succ_le_succ h
    refine .before (.expect (by decide) _) fun _ => .before (local_expression h) fun condition => ?_
    refine .before (.expect (by decide) _) fun _ => .first (local_statement h) fun consequent => ?_
    have alternative : Local ElseAlike false g (Option.map (Stmt.relabel g))
        (Rule.following .kwElse (statement n)) (Rule.following .kwElse (statement n')) :=
      .following (by decide) (elseAlike_relabel g) (fun _ _ e => e) (local_statement h)
    refine fun tokens => (alternative tokens).bind (elseAlike_relabel g) fun found => ?_
    cases found with
    | none => exact .pure (Stmt.branch condition consequent none)
    | some t => exact .pure (Stmt.branch condition consequent (some t))

theorem local_blockRest : ∀ {n n' : Nat}, n ≤ n' →
    Local ElseAlike true g (Stmt.relabelList g) (blockRest n) (blockRest n')
  | 0, _, _ => .fail _ _
  | n + 1, n' + 1, h => by
    have h := Nat.le_of_succ_le_succ h
    refine .peek (.inl rfl) fun t tokens => ?_
    rw [Token.kind_relabel]
    split
    · exact Local.first (.expect (by decide) _) (fun _ => .pure []) _
    · exact Local.before (local_declaration h).strict
        (fun first => .first (local_blockRest h) fun rest => .pure (first :: rest)) _

end

end

end Grammar

end Lox
