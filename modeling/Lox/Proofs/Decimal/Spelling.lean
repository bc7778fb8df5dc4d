import Mathlib.Algebra.Order.Field.Basic
import Mathlib.Algebra.Order.Field.Power
import Mathlib.Data.List.TakeWhile
import Mathlib.Data.Rat.Cast.Order
import Mathlib.Tactic.FieldSimp
import Mathlib.Tactic.NormNum
import Mathlib.Tactic.Ring
import Lox.Decimal.Layout
import Lox.Decimal.Reader

/-!
# What a decimal text spells

Digits with at most one point among them spell a number. The plain text of a decimal spells the
decimal (`spelled_writeScaled`), so decimals with the same text are equal as numbers, however their
scale is split off.
-/

namespace Lox.Decimal

def Scaled.value (x : Scaled) : ℚ :=
  x.coefficient * 10 ^ x.exponent

/-- The number that digits spell, with the point as far from their end as the places say. -/
def shifted (digits : List Char) (places : Nat) : ℚ :=
  ofDigits digits * 10 ^ (-places : ℤ)

/-- The number that a text of digits and at most one point spells. -/
def spelled (text : List Char) : ℚ :=
  let fraction := (text.dropWhile (· ≠ '.')).drop 1
  shifted (text.takeWhile (· ≠ '.') ++ fraction) fraction.length

def AllDigits (digits : List Char) : Prop :=
  ∀ c ∈ digits, c.isDigit

-- ---------------------------------------------------------------------------
-- Digits
-- ---------------------------------------------------------------------------

theorem ofDigits_append_zeros (digits : List Char) (n : Nat) :
    ofDigits (digits ++ zeros n) = ofDigits digits * 10 ^ n := by
  rw [Nat.mul_comm]
  exact (Nat.ofDigitChars_append 0).trans Nat.ofDigitChars_replicate_zero

theorem ofDigits_zeros_append (n : Nat) (digits : List Char) :
    ofDigits (zeros n ++ digits) = ofDigits digits := by
  refine (Nat.ofDigitChars_append 0).trans ?_
  rw [zeros, Nat.ofDigitChars_replicate_zero]
  rfl

theorem ofDigits_toDigits (n : Nat) : ofDigits (Nat.toDigits 10 n) = n :=
  Nat.ofDigitChars_ten_toDigits

theorem allDigits_toDigits (n : Nat) : AllDigits (Nat.toDigits 10 n) :=
  fun _ hc => Nat.isDigit_of_mem_toDigits (by decide) (by decide) hc

theorem AllDigits.append {a b : List Char} (ha : AllDigits a) (hb : AllDigits b) :
    AllDigits (a ++ b) :=
  fun _ hc => (List.mem_append.1 hc).elim (ha _) (hb _)

theorem allDigits_zeros (n : Nat) : AllDigits (zeros n) := by
  intro c hc
  rw [List.eq_of_mem_replicate hc]
  decide

theorem exists_zeros (digits : List Char) : ∃ n, significant digits ++ zeros n = digits := by
  have split := List.takeWhile_append_dropWhile (p := (· == '0')) (l := digits.reverse)
  have cut : digits.reverse.takeWhile (· == '0') =
      zeros (digits.reverse.takeWhile (· == '0')).length := by
    refine List.eq_replicate_of_mem fun c hc => ?_
    simpa using List.all_eq_true.1 List.all_takeWhile c hc
  refine ⟨(digits.reverse.takeWhile (· == '0')).length, ?_⟩
  rw [cut] at split
  simpa [significant, zeros] using congrArg List.reverse split

theorem ofDigits_significant (digits : List Char) :
    ofDigits digits = ofDigits (significant digits) *
      10 ^ (digits.length - (significant digits).length) := by
  obtain ⟨n, whole⟩ := exists_zeros digits
  have length : digits.length - (significant digits).length = n := by
    have := congrArg List.length whole
    rw [List.length_append, zeros, List.length_replicate] at this
    omega
  rw [length, ← ofDigits_append_zeros, whole]

theorem AllDigits.significant {digits : List Char} (h : AllDigits digits) :
    AllDigits (significant digits) := by
  obtain ⟨n, whole⟩ := exists_zeros digits
  intro c hc
  exact h c (whole ▸ List.mem_append_left _ hc)

-- ---------------------------------------------------------------------------
-- Positional notation
-- ---------------------------------------------------------------------------

theorem shifted_append_zeros (digits : List Char) (n : Nat) :
    shifted (digits ++ zeros n) 0 = ofDigits digits * 10 ^ (n : ℤ) := by
  simp [shifted, ofDigits_append_zeros]

theorem shifted_positional (digits : List Char) (exponent : Int) :
    shifted ((positional digits exponent).1 ++ (positional digits exponent).2)
      (positional digits exponent).2.length = ofDigits digits * 10 ^ exponent := by
  unfold positional
  dsimp only
  split
  · next whole =>
    rw [List.append_nil, List.length_nil, shifted_append_zeros, Int.toNat_of_nonneg whole]
  split
  · next whole inside =>
    have places :
        -(((digits.drop (digits.length + exponent).toNat).length : Nat) : ℤ) = exponent := by
      rw [List.length_drop]
      omega
    rw [List.take_append_drop, shifted, places]
  · next whole inside =>
    have places : -(((zeros (-(digits.length + exponent)).toNat ++ digits).length : Nat) : ℤ) =
        exponent := by
      rw [List.length_append, zeros, List.length_replicate]
      omega
    have leading : ['0'] ++ (zeros (-(digits.length + exponent)).toNat ++ digits) =
        zeros ((-(digits.length + exponent)).toNat + 1) ++ digits := rfl
    rw [shifted, places, leading, ofDigits_zeros_append]

theorem allDigits_positional {digits : List Char} (h : AllDigits digits) (exponent : Int) :
    AllDigits (positional digits exponent).1 ∧ AllDigits (positional digits exponent).2 := by
  unfold positional
  dsimp only
  split
  · exact ⟨h.append (allDigits_zeros _), by simp [AllDigits]⟩
  split
  · exact ⟨fun c hc => h c (List.mem_of_mem_take hc), fun c hc => h c (List.mem_of_mem_drop hc)⟩
  · exact ⟨allDigits_zeros 1, (allDigits_zeros _).append h⟩

theorem positional_whole_ne_nil {digits : List Char} (h : digits ≠ []) (exponent : Int) :
    (positional digits exponent).1 ≠ [] := by
  have := List.length_pos_iff.2 h
  unfold positional
  dsimp only
  split
  · simp [h]
  split
  · next inside =>
    rw [← List.length_pos_iff, List.length_take]
    omega
  · simp

inductive Plain : List Char → ℚ → Prop
  | whole {whole : List Char} : AllDigits whole → whole ≠ [] → Plain whole (shifted whole 0)
  | point {whole fraction : List Char} :
    AllDigits whole → whole ≠ [] → AllDigits fraction →
    Plain (whole ++ '.' :: fraction) (shifted (whole ++ fraction) fraction.length)

theorem plain_join {whole fraction : List Char} (hw : AllDigits whole) (hn : whole ≠ [])
    (hf : AllDigits fraction) :
    Plain (Layout.plain.join whole fraction) (shifted (whole ++ fraction) fraction.length) := by
  unfold Layout.join
  split
  · next none =>
    rw [List.isEmpty_iff.1 none, List.append_nil]
    exact .whole hw hn
  · exact .point hw hn hf

theorem AllDigits.ne_point {digits : List Char} (h : AllDigits digits) :
    ∀ c ∈ digits, decide (c ≠ '.') = true := by
  intro c hc
  refine decide_eq_true ?_
  rintro rfl
  exact absurd (h _ hc) (by decide)

theorem Plain.spelled_eq {text : List Char} {x : ℚ} (h : Plain text x) : spelled text = x := by
  cases h with
  | whole hw =>
    unfold spelled
    rw [List.takeWhile_eq_self_iff.2 hw.ne_point, List.dropWhile_eq_nil_iff.2 hw.ne_point]
    simp
  | @point whole fraction hw =>
    unfold spelled
    rw [List.takeWhile_append_of_pos hw.ne_point, List.dropWhile_append_of_pos hw.ne_point]
    simp

/-- The plain text of a decimal spells its number. -/
theorem plain_writeScaled (x : Scaled) : Plain (Layout.plain.writeScaled x) x.value := by
  have coefficient : ofDigits (Nat.toDigits 10 x.coefficient) = x.coefficient := ofDigits_toDigits _
  have digits := (allDigits_toDigits x.coefficient).significant
  rw [ofDigits_significant] at coefficient
  unfold Layout.writeScaled
  split
  · next zero =>
    have value : x.value = shifted ['0'] 0 := by simp [Scaled.value, zero, shifted, ofDigits]
    have zeroed : AllDigits ['0'] := allDigits_zeros 1
    rw [value]
    exact .whole zeroed (List.cons_ne_nil _ _)
  · next positive =>
    dsimp only [Layout.plain]
    generalize (Nat.toDigits 10 x.coefficient).length -
      (significant (Nat.toDigits 10 x.coefficient)).length = n at coefficient ⊢
    generalize significant (Nat.toDigits 10 x.coefficient) = kept at coefficient digits ⊢
    have nonempty : kept ≠ [] := by
      rintro rfl
      exact positive (by rw [← coefficient]; simp [ofDigits])
    have value : x.value = ofDigits kept * 10 ^ (x.exponent + (n : Nat)) := by
      rw [Scaled.value, ← coefficient, zpow_add₀ (by norm_num), zpow_natCast]
      push_cast
      ring
    rw [value, ← shifted_positional]
    exact plain_join (allDigits_positional digits _).1 (positional_whole_ne_nil nonempty _)
      (allDigits_positional digits _).2

theorem spelled_writeScaled (x : Scaled) : spelled (Layout.plain.writeScaled x) = x.value :=
  (plain_writeScaled x).spelled_eq

end Lox.Decimal
