import Lox.Proofs.Loop.Direct
import Lox.Proofs.Loop.Lockstep
import Lox.Proofs.Machine.Steps

/-!
# A `for` means what it says

The `while` in blocks that a `for` is read as goes like the loop itself, whichever clauses there are
(`for_means_loop`). The two stand in different scopes: the loop always has one of its own, the
`while` has one only for a first clause, and another one in each round for an increment.
`For.spaced` is the `while` with the steps of the loop; the two take each part of the loop in
lockstep.
-/

namespace Lox

variable {α : Type}

-- ---------------------------------------------------------------------------
-- More steps for loops
-- ---------------------------------------------------------------------------

namespace Run

theorem ExtendedBy.of_le {x : Nat → Run α} (hx : ∀ n, (x n).ExtendedBy (x (n + 1))) {n k : Nat}
    (hn : n ≤ k) : (x n).ExtendedBy (x k) := by
  induction hn with
  | refl => exact .refl _
  | step _ ih => exact ih.trans (hx _)

theorem ExtendedBy.andThen {x y x' y' : Run Completion} (h : x.ExtendedBy y)
    (h' : x'.ExtendedBy y') : (x.andThen x').ExtendedBy (y.andThen y') := by
  refine .bind h fun completion => ?_
  split
  · exact h'
  · exact .refl _

theorem andThen_normal (x : Run Completion) : x.andThen (Pure.pure .normal) = x := by
  funext m
  rw [andThen, bind_apply]
  cases x m with
  | done completion m' => cases completion <;> rfl
  | failed | unfinished => rfl

theorem ExtendedBy.repeatWhile {test test' : Nat → Run Value} {round round' : Nat → Run Completion}
    (k : Nat) (ht : ∀ n, (test n).ExtendedBy (test' (n + k)))
    (hr : ∀ n, (round n).ExtendedBy (round' (n + k))) (n : Nat) :
    (repeatWhile test round n).ExtendedBy (repeatWhile test' round' (n + k)) := by
  induction n with
  | zero => exact .unfinished _
  | succ n ih =>
    rw [Nat.succ_add]
    refine .bind (ht n) fun value => ?_
    split
    · exact .andThen (hr n) ih
    · exact .refl _

end Run

open Run (ExtendedBy)

namespace Stmt

theorem execute_loop (condition : Expr) (body : Stmt) (n : Nat) :
    (loop condition body).execute n =
      Run.repeatWhile (condition.evaluate ·) (body.execute ·) n := by
  induction n with
  | zero => rfl
  | succ n ih =>
    rw [execute, ih]
    rfl

theorem executeList_nil_extended (n : Nat) : (executeList n []).ExtendedBy (pure .normal) := by
  cases n with
  | zero => exact .unfinished _
  | succ n => exact .refl _

theorem executeList_two_extended (n : Nat) (t u : Stmt) :
    (executeList n [t, u]).ExtendedBy ((t.execute n).andThen (u.execute n)) := by
  have single : ∀ n, (executeList n [u]).ExtendedBy (u.execute (n + 1)) := by
    rintro (_ | n)
    · exact .unfinished _
    · have last : (executeList (n + 1) [u]).ExtendedBy (Run.andThen (u.execute n) (pure .normal)) :=
        .andThen (.refl _) (executeList_nil_extended n)
      rw [Run.andThen_normal] at last
      exact last.trans (.of_le u.execute_extended (Nat.le_add_right n 2))
  cases n with
  | zero => exact .unfinished _
  | succ n => exact .andThen (t.execute_extended n) (single n)

theorem extended_executeList_two (n : Nat) (t u : Stmt) :
    ((t.execute n).andThen (u.execute n)).ExtendedBy (executeList (n + 2) [t, u]) := by
  have single : (u.execute n).ExtendedBy (executeList (n + 1) [u]) := by
    cases n with
    | zero => exact .unfinished _
    | succ n =>
      have last : executeList (n + 2) [u] = u.execute (n + 1) := Run.andThen_normal _
      rw [last]
      exact .refl _
  exact .andThen (t.execute_extended n) single

theorem execute_block_two_extended (n : Nat) (t u : Stmt) :
    ((block [t, u]).execute n).ExtendedBy (Run.inBlock ((t.execute n).andThen (u.execute n))) := by
  cases n with
  | zero => exact .unfinished _
  | succ n =>
    refine .inBlock ((executeList_two_extended n t u).trans ?_)
    exact .andThen (t.execute_extended n) (u.execute_extended n)

theorem extended_execute_block_two (n : Nat) (t u : Stmt) :
    (Run.inBlock ((t.execute n).andThen (u.execute n))).ExtendedBy
    ((block [t, u]).execute (n + 3)) :=
  .inBlock (extended_executeList_two n t u)

end Stmt

-- ---------------------------------------------------------------------------
-- The steps of the `while`
-- ---------------------------------------------------------------------------

namespace For

def whileBody (l : For) : Stmt :=
  match l.increment with
  | some increment => .block [l.body, .expression increment]
  | none => l.body

def whileLoop (l : For) : Stmt :=
  .loop (l.condition.getD (.literal (.boolean true))) l.whileBody

theorem desugared_eq (l : For) : l.desugared =
    match l.initializer with
    | some first => .block [first, l.whileLoop]
    | none => l.whileLoop := by
  obtain ⟨initializer, condition, increment, body⟩ := l
  cases initializer <;> cases increment <;> rfl

def spacedRound (l : For) (n : Nat) : Run Completion :=
  match l.increment with
  | some _ => Run.inBlock (l.round n)
  | none => l.round n

/-- The `while`, with as many steps for each part as the loop itself gives it. -/
def spaced (l : For) (n : Nat) : Run Completion :=
  match l.initializer with
  | some _ => Run.inBlock ((l.first n).andThen (Run.repeatWhile l.test l.spacedRound n))
  | none => Run.repeatWhile l.test l.spacedRound n

variable (l : For) (n : Nat)

theorem condition_extended :
    ((l.condition.getD (.literal (.boolean true))).evaluate n).ExtendedBy (l.test n) := by
  unfold test
  cases l.condition with
  | some condition => exact .refl _
  | none =>
    cases n with
    | zero => exact .unfinished _
    | succ n => exact .refl _

theorem extended_condition (k : Nat) :
    (l.test n).ExtendedBy ((l.condition.getD (.literal (.boolean true))).evaluate (n + k + 1)) := by
  unfold test
  cases l.condition with
  | some condition => exact .of_le condition.evaluate_extended (by omega)
  | none => exact .refl _

theorem whileBody_extended : (l.whileBody.execute n).ExtendedBy (l.spacedRound n) := by
  obtain ⟨initializer, condition, increment, body⟩ := l
  cases increment with
  | none =>
    have round : spacedRound ⟨initializer, condition, none, body⟩ n = body.execute n :=
      Run.andThen_normal _
    rw [round]
    exact .refl _
  | some increment =>
    refine (Stmt.execute_block_two_extended n _ _).trans (.inBlock (.andThen (.refl _) ?_))
    exact Stmt.execute_extended n (.expression increment)

theorem extended_whileBody : (l.spacedRound n).ExtendedBy (l.whileBody.execute (n + 4)) := by
  obtain ⟨initializer, condition, increment, body⟩ := l
  cases increment with
  | none =>
    have round : spacedRound ⟨initializer, condition, none, body⟩ n = body.execute n :=
      Run.andThen_normal _
    rw [round]
    exact .of_le (x := (body.execute ·)) body.execute_extended (Nat.le_add_right n 4)
  | some increment =>
    refine .trans (.inBlock ?_)
      (Stmt.extended_execute_block_two (n + 1) body (.expression increment))
    exact .andThen (body.execute_extended n) (.refl _)

theorem whileLoop_extended :
    (l.whileLoop.execute n).ExtendedBy (Run.repeatWhile l.test l.spacedRound n) := by
  rw [whileLoop, Stmt.execute_loop]
  exact .repeatWhile 0 l.condition_extended l.whileBody_extended n

theorem extended_whileLoop :
    (Run.repeatWhile l.test l.spacedRound n).ExtendedBy (l.whileLoop.execute (n + 4)) := by
  rw [whileLoop, Stmt.execute_loop]
  exact .repeatWhile 4 (l.extended_condition · 3) l.extended_whileBody n

theorem desugared_extended : (l.desugared.execute n).ExtendedBy (l.spaced n) := by
  rw [desugared_eq]
  unfold spaced first
  cases l.initializer with
  | none => exact l.whileLoop_extended n
  | some first =>
    refine (Stmt.execute_block_two_extended n _ _).trans (.inBlock ?_)
    exact .andThen (.refl _) (l.whileLoop_extended n)

theorem extended_desugared : (l.spaced n).ExtendedBy (l.desugared.execute (n + 7)) := by
  rw [desugared_eq]
  unfold spaced first
  cases l.initializer with
  | none =>
    refine (l.extended_whileLoop n).trans ?_
    exact .of_le l.whileLoop.execute_extended (Nat.add_le_add_left (by decide) n)
  | some first =>
    refine .trans (.inBlock ?_) (Stmt.extended_execute_block_two (n + 4) first l.whileLoop)
    exact .andThen (.of_le first.execute_extended (Nat.le_add_right n 4)) (l.extended_whileLoop n)

end For

-- ---------------------------------------------------------------------------
-- The scopes of the `while`
-- ---------------------------------------------------------------------------

namespace For

def around (l : For) (s : Scopes) : Scopes :=
  match l.initializer with
  | some first => s.enter.after first
  | none => s

def within (l : For) (s : Scopes) : Scopes :=
  match l.increment with
  | some _ => (l.around s).enter
  | none => l.around s

def bindSpaced (s : Scopes) (l : For) : For where
  initializer := l.initializer.map (Stmt.bind s.enter)
  condition := l.condition.map (Expr.bind (l.around s))
  increment := l.increment.map (Expr.bind (l.within s))
  body := l.body.bind (l.within s)

theorem bind_desugared {l : For} (hb : l.body.declared? = none) (s : Scopes) :
    l.desugared.bind s = (l.bindSpaced s).desugared := by
  have behind (s : Scopes) : s.after l.body = s := Scopes.after_of_undeclared hb
  obtain ⟨initializer, condition, increment, body⟩ := l
  cases initializer <;> cases condition <;> cases increment <;>
    simp [desugared, Grammar.forLoop, bindSpaced, around, within, Stmt.bind, Stmt.bindList,
      Expr.bind, behind]

/-- The scopes around the loop variable that only one of the two has. -/
def layersAround (l : For) : Loop.Layers :=
  match l.initializer with
  | some _ => [.shared]
  | none => [.right]

def layersWithin (l : For) : Loop.Layers :=
  match l.increment with
  | some _ => .left :: l.layersAround
  | none => l.layersAround

end For

namespace Loop

variable {l l' : For} {s : Scopes} {μ : Matching} {m m' : Machine} {σ : Layers}

theorem facing_around (l : For) (s : Scopes) :
    Facing l.layersAround (l.around s).locals (l.scopes s).locals := by
  unfold For.layersAround For.around For.scopes
  cases l.initializer with
  | none => exact .right (.outside _)
  | some first => exact Facing.after (σ := [.shared]) (.shared [] (.outside _)) trivial first

theorem facing_within (l : For) (s : Scopes) :
    Facing l.layersWithin (l.within s).locals (l.scopes s).locals := by
  unfold For.layersWithin For.within
  cases l.increment with
  | none => exact facing_around l s
  | some increment => exact .left (facing_around l s)

/-- The parts of a `for` in the `while`, and in the loop itself. -/
structure SameFor (l l' : For) : Prop where
  initializer : Option.Rel (SameStmt [.shared]) l.initializer l'.initializer
  condition : Option.Rel (SameExpr l.layersAround) l.condition l'.condition
  increment : Option.Rel (SameExpr l.layersWithin) l.increment l'.increment
  body : SameStmt l.layersWithin l.body l'.body

theorem SameFor.bind (hi : ∀ t ∈ l.initializer, t.Placed) (hb : Grammar.Inner l.body) (s : Scopes) :
    SameFor (l.bindSpaced s) (l.bind s) := by
  have around : (l.bindSpaced s).layersAround = l.layersAround := by
    unfold For.layersAround For.bindSpaced
    cases l.initializer <;> rfl
  have within : (l.bindSpaced s).layersWithin = l.layersWithin := by
    unfold For.layersWithin
    rw [around]
    unfold For.bindSpaced
    cases l.increment <;> rfl
  refine ⟨?_, around ▸ SameExpr.bind_option (facing_around l s) _,
    within ▸ SameExpr.bind_option (facing_within l s) _,
    within ▸ SameStmt.bind (facing_within l s) _ hb.2 (.inr hb.1)⟩
  unfold For.bindSpaced For.bind
  cases hl : l.initializer with
  | none => exact .none
  | some first =>
    exact .some (SameStmt.bind (.shared [] (.outside _)) first (hi first hl) (.inl trivial))

-- ---------------------------------------------------------------------------
-- Lockstep
-- ---------------------------------------------------------------------------

theorem Alike.andThen {x y x' y' : Run Completion} (hx : Alike μ SameCompletion m m' (x m) (y m'))
    (hx' : ∀ μ₁ m₁ m₁', Onward μ m m' μ₁ m₁ m₁' → Alike μ₁ SameCompletion m₁ m₁' (x' m₁) (y' m₁')) :
    Alike μ SameCompletion m m' (x.andThen x' m) (y.andThen y' m') := by
  refine .bind hx ?_
  intro c c' μ₁ m₁ m₁' ho hc
  cases hc with
  | normal => exact hx' μ₁ m₁ m₁' ho
  | returned hv => exact .pure ho.twins (.returned hv)

theorem repeatWhile_alike {test test' : Nat → Run Value} {round round' : Nat → Run Completion}
    (ht : ∀ n μ m m', Beside μ σ m m' → Alike μ Same m m' (test n m) (test' n m'))
    (hr : ∀ n μ m m', Beside μ σ m m' → Alike μ SameCompletion m m' (round n m) (round' n m'))
    (n : Nat) (hb : Beside μ σ m m') :
    Alike μ SameCompletion m m' (Run.repeatWhile test round n m)
      (Run.repeatWhile test' round' n m') := by
  induction n generalizing μ m m' with
  | zero => trivial
  | succ n ih =>
    refine .bind (ht n μ m m' hb) ?_
    intro v w μ₁ m₁ m₁' ho hv
    have hb₁ := ho.beside hb
    refine .ite hv.truthy ?_ (.pure ho.twins .normal)
    exact .andThen (hr n μ₁ m₁ m₁' hb₁) fun μ₂ m₂ m₂' ho₂ => ih (ho₂.beside hb₁)

theorem test_alike (hc : Option.Rel (SameExpr σ) l.condition l'.condition) (n : Nat)
    (hb : Beside μ σ m m') : Alike μ Same m m' (l.test n m) (l'.test n m') := by
  unfold For.test
  revert hc
  generalize l.condition = condition
  generalize l'.condition = condition'
  intro hc
  cases hc with
  | some he => exact evaluate_alike n hb he
  | none => exact .pure hb.twins (.plain (by simp))

theorem round_alike (hi : Option.Rel (SameExpr σ) l.increment l'.increment)
    (ht : SameStmt σ l.body l'.body) (n : Nat) (hb : Beside μ σ m m') :
    Alike μ SameCompletion m m' (l.round n m) (l'.round n m') := by
  refine .andThen (execute_alike n hb ht) ?_
  intro μ₁ m₁ m₁' ho
  unfold For.step
  revert hi
  generalize l.increment = increment
  generalize l'.increment = increment'
  intro hi
  cases hi with
  | none => exact .pure ho.twins .normal
  | some he =>
    refine .bind (evaluate_alike n (ho.beside hb) he) ?_
    intro _ _ μ₂ m₂ m₂' ho₂ _
    exact .pure ho₂.twins .normal

theorem SameFor.spacedRound_alike (hl : SameFor l l') (n : Nat)
    (hb : Beside μ l.layersAround m m') :
    Alike μ SameCompletion m m' (l.spacedRound n m) (l'.round n m') := by
  have whole {μ m m'} (hb : Beside μ l.layersWithin m m') := round_alike hl.increment hl.body n hb
  unfold For.layersWithin at whole
  unfold For.spacedRound
  cases hi : l.increment with
  | none =>
    rw [hi] at whole
    exact whole hb
  | some increment =>
    rw [hi] at whole
    exact hb.inBlockLeft fun μ₁ m₁ hb' => whole hb'

theorem SameFor.spaced_alike (hl : SameFor l l') (n : Nat) (hb : Beside μ [] m m') :
    Alike μ SameCompletion m m' (l.spaced n m) (l'.run n m') := by
  have rounds {μ m m'} (hb : Beside μ l.layersAround m m') :=
    repeatWhile_alike (fun n _ _ _ hb => test_alike hl.condition n hb)
      (fun n _ _ _ hb => hl.spacedRound_alike n hb) n hb
  have first := hl.initializer
  unfold For.layersAround at rounds
  unfold For.spaced For.run For.first
  revert rounds first
  cases l.initializer <;> cases l'.initializer
  case none.none =>
    intro rounds _
    exact hb.inBlockRight fun μ₁ m₁' hb' => rounds hb'
  case some.some first first' =>
    rintro rounds (same | _)
    refine hb.inBlock fun μ₁ m₁ m₁' hb' => .andThen (execute_alike n hb' same) ?_
    exact fun μ₂ m₂ m₂' ho => rounds (ho.beside hb')
  all_goals
    rintro - ⟨⟩

-- ---------------------------------------------------------------------------
-- Every `for`
-- ---------------------------------------------------------------------------

theorem Beside.start (hm : m.WellFormed) : Beside (.start m) [] m m :=
  ⟨.self hm, .outside hm.current⟩

theorem Alike.finishes {α β : Type} {R : Likeness α β} {o : Outcome α} {o' : Outcome β}
    (h : Alike μ R m m' o o') (ho : o' ≠ .unfinished) : o ≠ .unfinished := by
  rintro rfl
  cases o' with
  | done | failed => exact h.elim
  | unfinished => exact ho rfl

/-- A statement that starts at a `for` is the `while` of the parts that follow. It declares nothing
for what comes after it, and its loop variable is the one in the scope of the loop. Wherever it
stands and whatever the machine, the `while` comes to an end if and only if the loop itself does,
and to the same one: the same `return` or error, the same output, and in the frames that were there
the same names with the same values, functions up to spare frames around what they captured. -/
theorem for_means_loop {n : Nat} {t : Token} {tokens rest : List Token} {st : Stmt}
    {found : List Grammar.Finding} (ht : t.kind = .kwFor)
    (hr : Grammar.statement n (t :: tokens) = .read st rest found) :
    ∃ l k, Grammar.forParts k tokens = .read l rest found ∧ st = l.desugared ∧
      ∀ s : Scopes, s.after st = s ∧
        (∀ name value, l.initializer = some (.variable name value) →
          (l.scopes s).distance name.lexeme = some 0) ∧
        ∀ m : Machine, m.WellFormed → ∀ steps,
          ((st.bind s).execute steps m ≠ .unfinished →
            Alike (.start m) SameCompletion m m ((st.bind s).execute steps m)
              ((l.bind s).run steps m)) ∧
          ((l.bind s).run steps m ≠ .unfinished →
            Alike (.start m) SameCompletion m m ((st.bind s).execute (steps + 7) m)
              ((l.bind s).run steps m)) := by
  obtain ⟨l, k, parts, rfl⟩ := Grammar.exists_forParts ht hr
  obtain ⟨hi, hb⟩ := Grammar.forParts_placed k _ _ _ _ parts
  refine ⟨l, k, parts, rfl, fun s => ⟨?_, fun _ _ h => For.distance_variable h s, ?_⟩⟩
  · exact Scopes.after_of_undeclared (Grammar.inner_forLoop hi hb).1
  · intro m hm steps
    -- the aligned run is extended by the `while` and extends it, so it stands for it both ways
    have alike := (SameFor.bind hi hb s).spaced_alike steps (.start hm)
    rw [For.bind_desugared hb.1]
    constructor
    · intro finishes
      rwa [← For.desugared_extended _ steps m finishes]
    · intro finishes
      rwa [For.extended_desugared _ steps m (alike.finishes finishes)]

def oneRound : List Token :=
  [⟨.kwFor, "for", none, 1⟩, ⟨.leftParen, "(", none, 1⟩, ⟨.kwVar, "var", none, 1⟩,
    ⟨.identifier, "i", none, 1⟩, ⟨.semicolon, ";", none, 1⟩, ⟨.bang, "!", none, 1⟩,
    ⟨.identifier, "i", none, 1⟩, ⟨.semicolon, ";", none, 1⟩, ⟨.identifier, "i", none, 1⟩,
    ⟨.equal, "=", none, 1⟩, ⟨.kwTrue, "true", none, 1⟩, ⟨.rightParen, ")", none, 1⟩,
    ⟨.kwPrint, "print", none, 1⟩, ⟨.identifier, "i", none, 1⟩, ⟨.semicolon, ";", none, 1⟩,
    Token.atEnd 1]

/-- The `while` and the loop both print `nil` once. -/
theorem for_means_loop_one_round :
    let m := Machine.initial (.buffer "") fun _ => 0
    let s := Scopes.topLevel ["clock"]
    ∃ l k, Grammar.forParts k oneRound.tail = .read l [Token.atEnd 1] [] ∧
      ∃ m₁ m₁', (l.desugared.bind s).execute 20 m = .done .normal m₁ ∧
        (l.bind s).run 20 m = .done .normal m₁' ∧ m₁.output = .buffer "nil\n" ∧
        m₁'.output = m₁.output := by
  intro m s
  have ran : ∃ st, Grammar.statement 40 oneRound = .read st [Token.atEnd 1] [] ∧
      ∃ m₁, (st.bind s).execute 20 m = .done .normal m₁ ∧ m₁.output = .buffer "nil\n" :=
    ⟨_, rfl, _, rfl, by decide⟩
  obtain ⟨st, read, m₁, done, printed⟩ := ran
  obtain ⟨l, k, parts, rfl, whole⟩ := for_means_loop rfl read
  have alike := ((whole s).2.2 m (Machine.wellFormed_initial ..) 20).1 (by rw [done]; simp)
  rw [done] at alike
  refine ⟨l, k, parts, m₁, ?_⟩
  cases direct : (l.bind s).run 20 m with
  | done c m₁' =>
    rw [direct] at alike
    obtain ⟨μ, onward, same⟩ := alike
    cases same
    exact ⟨m₁', done, rfl, printed, onward.twins.output⟩
  | failed | unfinished =>
    rw [direct] at alike
    exact alike.elim

end Loop

end Lox
