import Lox.Proofs.Grammar.Spending
import Lox.Proofs.Scope.Accepted

/-!
# Where the grammar puts declarations

A branch of an `if` and the body of a loop are read by the rule for statements, which reads no
declaration. So in every tree that is read declarations stand at top level, in blocks and in
function bodies only.
-/

namespace Lox.Grammar

variable {α β : Type}

namespace Rule

def Returns (P : α → Prop) (rule : Rule α) : Prop :=
  ∀ tokens value rest findings, rule tokens = .read value rest findings → P value

theorem Returns.pure {P : α → Prop} {value : α} (h : P value) : Returns P (Pure.pure value) := by
  rintro tokens _ rest findings ⟨⟩
  exact h

theorem Returns.fail {P : α → Prop} (fault : Fault) : Returns P (fail fault) := by
  rintro tokens value rest findings ⟨⟩

theorem Returns.bind {P : α → Prop} {Q : β → Prop} {x : Rule α} {f : α → Rule β}
    (hx : x.Returns P) (hf : ∀ a, P a → (f a).Returns Q) : (x >>= f).Returns Q := by
  intro tokens b rest findings h
  rw [bind_apply] at h
  cases hr : x tokens with
  | read a middle noted =>
    rw [hr] at h
    dsimp only at h
    cases hs : f a middle with
    | read b' rest' findings' =>
      rw [hs] at h
      cases h
      exact hf a (hx _ _ _ _ hr) _ _ _ _ hs
    | stuck | broken =>
      rw [hs] at h
      cases h
  | stuck | broken =>
    rw [hr] at h
    cases h

theorem Returns.trivial (x : Rule α) : x.Returns fun _ => True :=
  fun _ _ _ _ _ => True.intro

theorem Returns.after {Q : β → Prop} {x : Rule α} {f : α → Rule β} (hf : ∀ a, (f a).Returns Q) :
    (x >>= f).Returns Q :=
  .bind (.trivial x) fun a _ => hf a

theorem Returns.following {P : α → Prop} {x : Rule α} (kind : Kind) (hx : x.Returns P) :
    (following kind x).Returns fun o => ∀ a ∈ o, P a := by
  refine .after fun next => ?_
  split
  · exact .after fun _ => .bind hx fun a ha => .pure (by simpa using ha)
  · exact .pure (by simp)

theorem Returns.ite {P : α → Prop} {c : Prop} [Decidable c] {x y : Rule α} (hx : x.Returns P)
    (hy : y.Returns P) : (if c then x else y).Returns P := by
  split
  · exact hx
  · exact hy

end Rule

open Rule (Returns)

/-- A statement that is no declaration, with declarations in their places. -/
def Inner (t : Stmt) : Prop :=
  t.declared? = none ∧ t.Placed

theorem placed_variableRest (n : Nat) : (variableRest n).Returns Stmt.Placed := by
  refine .after fun name => .after fun initializer => ?_
  exact .after fun _ => .pure trivial

theorem inner_expressionStatement (n : Nat) : (expressionStatement n).Returns Inner := by
  refine .after fun value => ?_
  exact .after fun _ => .pure ⟨rfl, trivial⟩

theorem placed_firstClause (n : Nat) : (firstClause n).Returns fun t => ∀ s ∈ t, s.Placed := by
  have wrapped {x : Rule Stmt} (hx : x.Returns Stmt.Placed) :
      (some <$> x).Returns fun t => ∀ s ∈ t, s.Placed :=
    .bind hx fun a ha => .pure (by simpa using ha)
  refine .after fun next => .ite (.after fun _ => .pure (by simp)) (.ite ?_ ?_)
  · exact .after fun _ => wrapped (placed_variableRest n)
  · exact wrapped fun _ _ _ _ h => (inner_expressionStatement n _ _ _ _ h).2

theorem inner_forLoop {initializer : Option Stmt} {condition increment : Option Expr} {body : Stmt}
    (hi : ∀ s ∈ initializer, s.Placed) (hb : Inner body) :
    Inner (forLoop initializer condition increment body) := by
  have looped {body : Stmt} (hb : Inner body) :
      Inner (forLoop initializer condition none body) := by
    cases initializer with
    | some first => exact ⟨rfl, hi first rfl, hb, trivial⟩
    | none => exact ⟨rfl, hb⟩
  cases increment with
  | some e =>
    have stepped : Inner (.block [body, .expression e]) := ⟨rfl, hb.2, trivial, trivial⟩
    exact looped stepped
  | none => exact looped hb

mutual

theorem placed_declaration : ∀ n : Nat, (declaration n).Returns Stmt.Placed
  | 0 => .fail _
  | n + 1 => by
    refine .after fun next => .ite ?_ (.ite ?_ ?_)
    · exact .after fun _ => placed_functionRest n
    · exact .after fun _ => placed_variableRest n
    · exact fun _ _ _ _ h => (inner_statement n _ _ _ _ h).2

theorem placed_functionRest : ∀ n : Nat, (functionRest n).Returns Stmt.Placed
  | 0 => .fail _
  | n + 1 => by
    refine .after fun name => .after fun _ => ?_
    refine .after fun names => .after fun _ => ?_
    refine .after fun _ => ?_
    exact .bind (placed_blockRest n) fun body hb => .pure hb

theorem inner_statement : ∀ n : Nat, (statement n).Returns Inner
  | 0 => .fail _
  | n + 1 => by
    refine .after fun next => ?_
    split
    · exact .after fun _ => inner_forRest n
    · exact .after fun _ => inner_ifRest n
    · refine .after fun _ => .after fun value => ?_
      exact .after fun _ => .pure ⟨rfl, trivial⟩
    · refine .after fun keyword => .after fun value => ?_
      exact .after fun _ => .pure ⟨rfl, trivial⟩
    · refine .after fun _ => .after fun _ => ?_
      refine .after fun condition => .after fun _ => ?_
      exact .bind (inner_statement n) fun body hb => .pure ⟨rfl, hb⟩
    · refine .after fun _ => ?_
      exact .bind (placed_blockRest n) fun body hb => .pure ⟨rfl, hb⟩
    · exact inner_expressionStatement n

theorem inner_forRest : ∀ n : Nat, (forRest n).Returns Inner
  | 0 => .fail _
  | n + 1 => by
    refine .after fun _ => ?_
    refine .bind (placed_firstClause n) fun initializer hi => ?_
    refine .after fun condition => .after fun _ => ?_
    refine .after fun increment => .after fun _ => ?_
    exact .bind (inner_statement n) fun body hb => .pure (inner_forLoop hi hb)

theorem inner_ifRest : ∀ n : Nat, (ifRest n).Returns Inner
  | 0 => .fail _
  | n + 1 => by
    refine .after fun _ => .after fun condition => .after fun _ => ?_
    refine .bind (inner_statement n) fun consequent hc => ?_
    refine .bind (.following _ (inner_statement n)) fun alternative ha => .pure ?_
    cases alternative with
    | none => exact ⟨rfl, hc⟩
    | some t => exact ⟨rfl, hc, ha t rfl⟩

theorem placed_blockRest : ∀ n : Nat, (blockRest n).Returns Stmt.ListPlaced
  | 0 => .fail _
  | n + 1 => by
    refine .after fun next => .ite ?_ ?_
    · exact .after fun _ => .pure trivial
    · exact .bind (placed_declaration n) fun _ hf =>
        .bind (placed_blockRest n) fun _ hr => .pure ⟨hf, hr⟩

end

theorem placed_program {n : Nat} {tokens : List Token} {reading : Reading}
    (h : program n tokens = .ok reading) : Stmt.ListPlaced reading.statements := by
  fun_induction program n tokens generalizing reading with
  | case1 | case2 => cases h
  | case3 n t rest atEnd =>
    cases h
    trivial
  | case4 n t rest _ first after findings hd ih =>
    obtain ⟨r, hr, rfl⟩ := program_map_eq_ok h
    exact ⟨placed_declaration n _ _ _ _ hd, ih hr⟩
  | case5 n t rest _ stop findings _ after hs ih =>
    obtain ⟨r, hr, rfl⟩ := program_map_eq_ok h
    exact (ih hr : Stmt.ListPlaced r.statements)
  | case6 | case7 => cases h

theorem placed_parse {tokens : List Token} {reading : Reading} (h : parse tokens = .ok reading) :
    Stmt.ListPlaced reading.statements :=
  placed_program h

end Lox.Grammar
