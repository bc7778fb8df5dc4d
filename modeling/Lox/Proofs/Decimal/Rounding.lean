import Mathlib.Data.Nat.Cast.Order.Field
import Mathlib.Tactic.Linarith
import Mathlib.Tactic.Positivity
import Lox.Proofs.Decimal.Spelling

/-!
# Rounding intervals

Around every double lie the numbers that are read as it. The intervals of two doubles have no number
in common (`Covers.eq`). The shortest decimal of a double lies in its interval (`covers_shortest`):
the search for it cannot fail, since on a grid of seventeen digits the interval is wider than one
step.
-/

namespace Lox.Decimal

-- ---------------------------------------------------------------------------
-- Intervals
-- ---------------------------------------------------------------------------

namespace Binary

/-- The magnitudes of doubles: a mantissa of 53 bits, or of fewer with the least exponent. -/
structure Canonical (b : Binary) : Prop where
  mantissa : b.mantissa < 2 ^ 53
  exponent : leastExponent ≤ b.exponent
  normal : b.exponent ≠ leastExponent → 2 ^ 52 ≤ b.mantissa

/-- A quarter of the way to the next larger magnitude. -/
def quarter (b : Binary) : ℚ :=
  2 ^ (b.exponent - 2)

def low (b : Binary) : ℚ :=
  (4 * b.mantissa - if b.crowdedBelow then 1 else 2) * b.quarter

def value (b : Binary) : ℚ :=
  4 * b.mantissa * b.quarter

def high (b : Binary) : ℚ :=
  (4 * b.mantissa + 2) * b.quarter

/-- The number is read as the magnitude. An end of the interval is if the mantissa is even. -/
structure Covers (b : Binary) (x : ℚ) : Prop where
  low : b.low ≤ x
  high : x ≤ b.high
  inside : b.mantissa % 2 = 1 → b.low < x ∧ x < b.high

variable {b b' : Binary} {x : ℚ}

theorem quarter_pos (b : Binary) : 0 < b.quarter :=
  zpow_pos (by norm_num) _

theorem low_lt_value (b : Binary) : b.low < b.value := by
  have := b.quarter_pos
  unfold low value
  split <;> nlinarith

theorem value_lt_high (b : Binary) : b.value < b.high := by
  have := b.quarter_pos
  unfold value high
  nlinarith

theorem Covers.pos (hm : b.mantissa ≠ 0) (h : b.Covers x) : 0 < x := by
  have positive := b.quarter_pos
  have one : (1 : ℚ) ≤ b.mantissa := by exact_mod_cast Nat.one_le_iff_ne_zero.2 hm
  refine lt_of_lt_of_le ?_ h.low
  unfold Binary.low
  split <;> nlinarith

theorem covers_of_between (hl : b.low < x) (hh : x < b.high) : b.Covers x :=
  ⟨hl.le, hh.le, fun _ => ⟨hl, hh⟩⟩

-- ---------------------------------------------------------------------------
-- Intervals of different doubles
-- ---------------------------------------------------------------------------

/-- The first interval ends below the second one, or where it begins, and then that end belongs to
one of them at most. -/
def Apart (b b' : Binary) : Prop :=
  b.high < b'.low ∨ b.high = b'.low ∧ (b.mantissa % 2 = 1 ∨ b'.mantissa % 2 = 1)

theorem Apart.not_covers (h : b.Apart b') (hb : b.Covers x) : ¬ b'.Covers x := by
  intro hb'
  rcases h with below | ⟨touch, odd | odd⟩
  · linarith [hb.high, hb'.low]
  · linarith [(hb.inside odd).2, hb'.low]
  · linarith [hb.high, (hb'.inside odd).1]

theorem apart_of_mantissa_lt (he : b.exponent = b'.exponent) (hm : b.mantissa < b'.mantissa) :
    b.Apart b' := by
  have positive := b.quarter_pos
  have same : b'.quarter = b.quarter := by rw [quarter, quarter, he]
  have next : (b.mantissa : ℚ) + 1 ≤ b'.mantissa := by exact_mod_cast hm
  unfold Apart high low
  rw [same]
  split
  · exact .inl (by nlinarith)
  · rcases eq_or_lt_of_le next with touch | far
    · refine .inr ⟨by rw [← touch]; ring, ?_⟩
      have touch : b.mantissa + 1 = b'.mantissa := by exact_mod_cast touch
      omega
    · exact .inl (by nlinarith)

/-- A larger exponent more than makes up for any mantissas. The intervals only touch where the
larger magnitude is a power of two and the mantissa of the smaller one is full, hence odd. -/
theorem apart_of_exponent_lt (hb : b.Canonical) (hb' : b'.Canonical)
    (he : b.exponent < b'.exponent) : b.Apart b' := by
  have positive := b.quarter_pos
  have least : b'.exponent ≠ leastExponent := fun h => by
    have := hb.exponent
    omega
  have doubled : 2 * b.quarter ≤ b'.quarter := by
    have step : (2 : ℚ) * b.quarter = 2 ^ (1 + (b.exponent - 2)) := by
      rw [zpow_add₀ (by norm_num), zpow_one, quarter]
    rw [step, quarter]
    exact zpow_le_zpow_right₀ (by norm_num) (by omega)
  have full : (b.mantissa : ℚ) + 1 ≤ 2 ^ 53 := by exact_mod_cast hb.mantissa
  unfold Apart high low crowdedBelow
  by_cases power : b'.mantissa = twoTo 52
  · have mantissa : (b'.mantissa : ℚ) = 2 ^ 52 := by rw [power]; norm_num [twoTo]
    rw [if_pos (by simp [power, least]), mantissa]
    rcases eq_or_lt_of_le full with last | rest
    · have odd : b.mantissa % 2 = 1 := by
        have last : b.mantissa + 1 = 2 ^ 53 := by exact_mod_cast last
        omega
      rcases eq_or_lt_of_le doubled with one | more
      · exact .inr ⟨by rw [← one]; nlinarith, .inl odd⟩
      · exact .inl (by nlinarith)
    · exact .inl (by nlinarith)
  · have mantissa : (2 : ℚ) ^ 52 + 1 ≤ b'.mantissa := by
      have : b'.mantissa ≠ 2 ^ 52 := power
      have : 2 ^ 52 + 1 ≤ b'.mantissa := by
        have := hb'.normal least
        omega
      exact_mod_cast this
    rw [if_neg (by simp [power])]
    exact .inl (by nlinarith)

/-- No number is read as two doubles. -/
theorem Covers.eq (hb : b.Canonical) (hb' : b'.Canonical) (h : b.Covers x) (h' : b'.Covers x) :
    b = b' := by
  rcases lt_trichotomy b.exponent b'.exponent with less | same | more
  · exact absurd h' ((apart_of_exponent_lt hb hb' less).not_covers h)
  · rcases lt_trichotomy b.mantissa b'.mantissa with smaller | equal | larger
    · exact absurd h' ((apart_of_mantissa_lt same smaller).not_covers h)
    · cases b
      cases b'
      simp_all
    · exact absurd h ((apart_of_mantissa_lt same.symm larger).not_covers h')
  · exact absurd h ((apart_of_exponent_lt hb' hb more).not_covers h')

end Binary

-- ---------------------------------------------------------------------------
-- Spans
-- ---------------------------------------------------------------------------

theorem pow_toNat_div {a : ℚ} (ha : a ≠ 0) (z : Int) : a ^ z.toNat / a ^ (-z).toNat = a ^ z := by
  rw [← zpow_natCast, ← zpow_natCast, ← zpow_sub₀ ha]
  congr 1
  omega

theorem twoTo_div (z : Int) : (twoTo z.toNat : ℚ) / twoTo (-z).toNat = 2 ^ z := by
  have cast (n : Nat) : (twoTo n : ℚ) = 2 ^ n := Nat.cast_pow 2 n
  rw [cast, cast, pow_toNat_div (by norm_num)]

theorem tenTo_div (z : Int) : (tenTo z.toNat : ℚ) / tenTo (-z).toNat = 10 ^ z := by
  have cast (n : Nat) : (tenTo n : ℚ) = 10 ^ n := Nat.cast_pow 10 n
  rw [cast, cast, pow_toNat_div (by norm_num)]

theorem twoTo_pos (n : Nat) : 0 < twoTo n :=
  Nat.pow_pos Nat.two_pos

theorem tenTo_pos (n : Nat) : 0 < tenTo n :=
  Nat.pow_pos (by decide)

namespace Span

def Contains (s : Span) (x : ℚ) : Prop :=
  if s.closed then (s.low / s.unit : ℚ) ≤ x ∧ x ≤ s.high / s.unit
  else (s.low / s.unit : ℚ) < x ∧ x < s.high / s.unit

theorem contains_iff {s : Span} (hu : 0 < s.unit) (numerator : Nat) {denominator : Nat}
    (hd : 0 < denominator) :
    s.contains numerator denominator ↔ s.Contains (numerator / denominator) := by
  have unit : (0 : ℚ) < s.unit := by exact_mod_cast hu
  have den : (0 : ℚ) < denominator := by exact_mod_cast hd
  unfold contains Contains
  split
  · rw [div_le_div_iff₀ unit den, div_le_div_iff₀ den unit]
    simp only [Bool.and_eq_true, decide_eq_true_eq]
    exact_mod_cast Iff.rfl
  · rw [div_lt_div_iff₀ unit den, div_lt_div_iff₀ den unit]
    simp only [Bool.and_eq_true, decide_eq_true_eq]
    exact_mod_cast Iff.rfl

theorem pow_magnitude_le {s : Span} (hv : 0 < s.value) (hu : 0 < s.unit) :
    (10 : ℚ) ^ (s.magnitude - 1) ≤ s.value / s.unit := by
  have unit : (0 : ℚ) < s.unit := by exact_mod_cast hu
  unfold magnitude
  split
  · next large =>
    have digits : 10 ^ (digitCount (s.value / s.unit) - 1) ≤ s.value / s.unit := by
      rcases Nat.eq_zero_or_pos (digitCount (s.value / s.unit) - 1) with one | more
      · rw [one]
        exact Nat.div_pos large hu
      · refine Nat.le_of_not_lt fun fewer => ?_
        have := (Nat.length_toDigits_le_iff (by decide) more).2 fewer
        unfold digitCount at *
        omega
    have exponent : (digitCount (s.value / s.unit) : Int) - 1 =
        ((digitCount (s.value / s.unit) - 1 : Nat) : Int) := by
      have : 0 < digitCount (s.value / s.unit) := Nat.length_toDigits_pos
      omega
    rw [exponent, zpow_natCast]
    calc (10 : ℚ) ^ (digitCount (s.value / s.unit) - 1) ≤ ((s.value / s.unit : Nat) : ℚ) := by
          exact_mod_cast digits
      _ ≤ s.value / s.unit := Nat.cast_div_le
  · next small =>
    generalize count : digitCount ((s.unit - 1) / s.value) = d
    have digits : (s.unit - 1) / s.value < 10 ^ d := by
      rw [← count]
      exact (Nat.length_toDigits_le_iff (by decide) Nat.length_toDigits_pos).1 le_rfl
    have whole : s.unit ≤ s.value * 10 ^ d := by
      have := (Nat.div_lt_iff_lt_mul hv).1 digits
      rw [Nat.mul_comm]
      omega
    have exponent : (1 - (d : Int) - 1) = -(d : Int) := by omega
    rw [exponent, zpow_neg, zpow_natCast, inv_eq_one_div, div_le_div_iff₀ (by positivity) unit]
    rw [one_mul]
    exact_mod_cast whole

theorem contains_of_nearest {s : Span} (hu : 0 < s.unit) {place : Int} {c : Nat}
    (h : s.nearest place = some c) : s.Contains (c * 10 ^ place) := by
  have inside : s.contains (c * tenTo place.toNat) (tenTo (-place).toNat) := by
    unfold nearest at h
    dsimp only at h
    split at h
    · next here there =>
      cases h
      split
      · exact here
      · exact there
    · next here _ =>
      cases h
      exact here
    · next _ there =>
      cases h
      exact there
    · cases h
  rw [contains_iff hu _ (tenTo_pos _)] at inside
  rwa [Nat.cast_mul, mul_div_assoc, tenTo_div] at inside

theorem around_of_nearest_eq_none {s : Span} (hu : 0 < s.unit) {place : Int}
    (h : s.nearest place = none) : ∃ c : Nat, (c : ℚ) * 10 ^ place ≤ s.value / s.unit ∧
      (s.value / s.unit : ℚ) < (c + 1 : Nat) * 10 ^ place ∧
      ¬ s.Contains (c * 10 ^ place) ∧ ¬ s.Contains ((c + 1 : Nat) * 10 ^ place) := by
  have step : (0 : ℚ) < 10 ^ place := zpow_pos (by norm_num) _
  have outside {k : Nat} (hk : s.contains (k * tenTo place.toNat) (tenTo (-place).toNat) = false) :
      ¬ s.Contains (k * 10 ^ place) := by
    rw [← tenTo_div, ← mul_div_assoc, ← Nat.cast_mul, ← contains_iff hu _ (tenTo_pos _), hk]
    exact Bool.false_ne_true
  have ratio : ((s.value * tenTo (-place).toNat : Nat) : ℚ) / (s.unit * tenTo place.toNat : Nat) =
      s.value / s.unit / 10 ^ place := by
    have up : (tenTo place.toNat : ℚ) ≠ 0 := by exact_mod_cast (tenTo_pos _).ne'
    have down : (tenTo (-place).toNat : ℚ) ≠ 0 := by exact_mod_cast (tenTo_pos _).ne'
    rw [← tenTo_div]
    push_cast
    field_simp
  unfold nearest at h
  dsimp only at h
  split at h
  · cases h
  · cases h
  · cases h
  · next here there =>
    refine ⟨_, ?_, ?_, outside here, outside there⟩
    · rw [← le_div_iff₀ step, ← ratio]
      exact Nat.cast_div_le
    · rw [← div_lt_iff₀ step, ← ratio]
      have positive : 0 < s.unit * tenTo place.toNat := Nat.mul_pos hu (tenTo_pos _)
      rw [div_lt_iff₀' (by exact_mod_cast positive)]
      exact_mod_cast Nat.lt_mul_div_succ _ positive

end Span

-- ---------------------------------------------------------------------------
-- The shortest decimal
-- ---------------------------------------------------------------------------

namespace Binary

variable {b : Binary}

theorem unit_pos (b : Binary) : 0 < (Span.ofBinary b).unit :=
  twoTo_pos _

theorem quarters (b : Binary) (n : Nat) :
    ((n * twoTo (b.exponent - 2).toNat : Nat) : ℚ) / (Span.ofBinary b).unit = n * b.quarter := by
  rw [quarter, ← twoTo_div, Nat.cast_mul, mul_div_assoc]
  rfl

theorem contains_ofBinary (hm : b.mantissa ≠ 0) {x : ℚ} :
    (Span.ofBinary b).Contains x ↔ b.Covers x := by
  have low : ((Span.ofBinary b).low : ℚ) / (Span.ofBinary b).unit = b.low := by
    have few : (if b.crowdedBelow then 1 else 2) ≤ 4 * b.mantissa := by split <;> omega
    refine (b.quarters _).trans ?_
    rw [Binary.low, Nat.cast_sub few]
    split <;> push_cast <;> rfl
  have high : ((Span.ofBinary b).high : ℚ) / (Span.ofBinary b).unit = b.high := by
    refine (b.quarters _).trans ?_
    rw [Binary.high]
    push_cast
    rfl
  have closed : (Span.ofBinary b).closed = (b.mantissa % 2 == 0) := rfl
  unfold Span.Contains
  rw [low, high, closed]
  split
  · next even =>
    refine ⟨fun h => ⟨h.1, h.2, fun odd => ?_⟩, fun h => ⟨h.low, h.high⟩⟩
    rw [beq_iff_eq] at even
    omega
  · next odd =>
    rw [beq_iff_eq] at odd
    exact ⟨fun h => covers_of_between h.1 h.2, fun h => h.inside (by omega)⟩

theorem value_ofBinary (b : Binary) :
    ((Span.ofBinary b).value : ℚ) / (Span.ofBinary b).unit = b.value := by
  refine (b.quarters _).trans ?_
  rw [value]
  push_cast
  rfl

theorem width (hb : b.Canonical) : b.value / 10 ^ 16 < b.high - b.low := by
  have positive := b.quarter_pos
  have mantissa : (b.mantissa : ℚ) + 1 ≤ 2 ^ 53 := by exact_mod_cast hb.mantissa
  rw [div_lt_iff₀ (by norm_num)]
  unfold high low value crowdedBelow
  split
  · next crowded =>
    have power : (b.mantissa : ℚ) = 2 ^ 52 := by
      simp only [Bool.and_eq_true, decide_eq_true_eq] at crowded
      rw [crowded.1]
      norm_num [twoTo]
    rw [power]
    nlinarith
  · nlinarith

/-- The finest grid of the search has a point in the interval. -/
theorem nearest_ne_none (hb : b.Canonical) (hm : b.mantissa ≠ 0) :
    (Span.ofBinary b).nearest ((Span.ofBinary b).magnitude - mostDigits) ≠ none := by
  intro none
  have value_pos : 0 < (Span.ofBinary b).value :=
    Nat.mul_pos (Nat.mul_pos (by decide) (Nat.pos_of_ne_zero hm)) (twoTo_pos _)
  have digit := Span.pow_magnitude_le value_pos b.unit_pos
  obtain ⟨c, below, above, not_here, not_there⟩ := Span.around_of_nearest_eq_none b.unit_pos none
  rw [contains_ofBinary hm] at not_here not_there
  rw [value_ofBinary] at digit below above
  have step : (10 : ℚ) ^ ((Span.ofBinary b).magnitude - mostDigits) ≤ b.value / 10 ^ 16 := by
    have split : (Span.ofBinary b).magnitude - mostDigits =
        (Span.ofBinary b).magnitude - 1 - ((16 : Nat) : Int) := by
      unfold mostDigits
      omega
    rw [split, zpow_sub₀ (by norm_num), zpow_natCast]
    gcongr
  have low : (c : ℚ) * 10 ^ ((Span.ofBinary b).magnitude - mostDigits) ≤ b.low := by
    by_contra inside
    exact not_here (covers_of_between (not_le.1 inside) (below.trans_lt b.value_lt_high))
  have high : b.high ≤ (c + 1 : Nat) * 10 ^ ((Span.ofBinary b).magnitude - mostDigits) := by
    by_contra inside
    exact not_there (covers_of_between (b.low_lt_value.trans above) (not_le.1 inside))
  have wide := b.width hb
  push_cast at high
  linarith

/-- The shortest decimal of a positive double is read as the double. -/
theorem covers_shortest (hb : b.Canonical) (hm : b.mantissa ≠ 0) : b.Covers b.shortest.value := by
  unfold shortest
  rw [if_neg hm]
  dsimp only
  cases hit : List.findSome? _ (List.map _ (List.range mostDigits)) with
  | some found =>
    obtain ⟨place, -, picked⟩ := List.exists_of_findSome?_eq_some hit
    obtain ⟨c, nearest, rfl⟩ := Option.map_eq_some_iff.1 picked
    exact (contains_ofBinary hm).1 (Span.contains_of_nearest b.unit_pos nearest)
  | none =>
    have last : (Span.ofBinary b).magnitude - mostDigits ∈ (List.range mostDigits).map
        fun k : Nat => (Span.ofBinary b).magnitude - (k + 1) :=
      List.mem_map.2 ⟨16, by decide, rfl⟩
    exact absurd (Option.map_eq_none_iff.1 (List.findSome?_eq_none_iff.1 hit _ last))
      (nearest_ne_none hb hm)

end Binary

end Lox.Decimal
