import Lox.Grammar.Expression
import Lox.Proofs.Syntax.Writing

/-!
# Levels and ranks

The levels at which operations are read are the precedences of their operators, one above the other.
-/

namespace Lox.Grammar

def Level.rank : Level → Nat
  | disjunction => 1
  | conjunction => 2
  | equality => 3
  | comparison => 4
  | term => 5
  | factor => 6

theorem Level.operates_iff {level : Level} {kind : Kind} :
    level.operates kind ↔ kind.precedence = level.rank := by
  cases level <;> cases kind <;> simp [Level.operates, Kind.precedence, Level.rank]

theorem Level.rank_pos (level : Level) : 0 < level.rank := by
  cases level <;> decide

theorem Level.rank_le (level : Level) : level.rank ≤ 6 := by
  cases level <;> decide

theorem precedence_le (kind : Kind) : kind.precedence ≤ 6 := by
  cases kind <;> decide

/-- The least rank of what is read at the given levels. -/
def leastRank : List Level → Nat
  | [] => 7
  | level :: _ => level.rank

/-- Levels without a gap, down to the tightest one. -/
def Graded : List Level → Prop
  | [] => True
  | level :: tighter => leastRank tighter = level.rank + 1 ∧ Graded tighter

theorem graded_all : Graded Level.all := by
  simp [Graded, Level.all, leastRank, Level.rank]

theorem Graded.leastRank_le : ∀ {levels : List Level}, Graded levels →
    ∀ level ∈ levels, leastRank levels ≤ level.rank
  | [], _, _, h => nomatch h
  | level :: tighter, graded, other, h => by
    obtain rfl | h := List.mem_cons.1 h
    · exact Nat.le_refl _
    · have tight := Graded.leastRank_le graded.2 other h
      rw [graded.1] at tight
      exact Nat.le_of_succ_le tight

theorem Graded.length_add : ∀ {levels : List Level}, Graded levels →
    levels.length + leastRank levels = 7
  | [], _ => rfl
  | level :: tighter, graded => by
    have count := Graded.length_add graded.2
    rw [graded.1] at count
    rw [List.length_cons, leastRank]
    omega

theorem Level.rank_join (level : Level) (left : Expr) (operator : Token) (right : Expr) :
    (level.join left operator right).rank = operator.kind.precedence := by
  cases level <;> rfl

theorem Level.spelling_join (level : Level) (left : Expr) (operator : Token) (right : Expr) :
    (level.join left operator right).spelling =
    left.spelling ++ .own operator :: right.spelling := by
  cases level <;> simp [Level.join, Expr.spelling]

theorem Level.shaped_join {level : Level} {left right : Expr} {operator : Token}
    (ho : level.operates operator.kind) (hl : left.Shaped) (hll : level.rank ≤ left.rank)
    (hr : right.Shaped) (hlr : level.rank < right.rank) :
    (level.join left operator right).Shaped := by
  rw [Level.operates_iff] at ho
  have joined : left.Joined operator right := ⟨ho ▸ level.rank_pos, ho ▸ hll, ho ▸ hlr⟩
  -- Below three the node is a logical one, and the grammar asks for one there.
  cases level <;> exact ⟨by rw [ho]; decide, joined, hl, hr⟩

theorem Level.unbound_join (level : Level) (left : Expr) (operator : Token) (right : Expr) :
    (level.join left operator right).unbound = level.join left.unbound operator right.unbound := by
  cases level <;> simp [Level.join, Expr.unbound]

end Lox.Grammar
