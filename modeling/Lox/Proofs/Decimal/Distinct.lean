import Lox.Proofs.Decimal.Rounding

/-!
# Distinct numbers have distinct texts

The plain text of a finite double is a sign, if there is one, and its shortest decimal, which is
read as no other double. So the text tells the double (`write_injective`). It is made of digits, a
sign and a point only, and starts with no letter (`write_chars`).
-/

namespace Lox.Decimal

-- ---------------------------------------------------------------------------
-- Bits
-- ---------------------------------------------------------------------------

def Binary.word (negative : Bool) (b : Binary) : Nat :=
  (if negative then 2 ^ 63 else 0) +
    if b.mantissa < 2 ^ 52 then b.mantissa
    else (b.exponent - leastExponent + 1).toNat * 2 ^ 52 + (b.mantissa - 2 ^ 52)

theorem Form.ofBits_eq_finite {bits : UInt64} {negative : Bool} {b : Binary}
    (h : Form.ofBits bits = .finite negative b) :
    b.Canonical ∧ bits.toNat = b.word negative := by
  have bound := bits.toNat_lt
  have powers : twoTo 63 = 2 ^ 63 ∧ twoTo 52 = 2 ^ 52 ∧ twoTo 11 = 2 ^ 11 := ⟨rfl, rfl, rfl⟩
  have sign : (if (bits.toNat / 2 ^ 63 == 1) = true then 2 ^ 63 else 0) =
      bits.toNat / 2 ^ 63 * 2 ^ 63 := by
    split
    · next one => rw [beq_iff_eq.1 one, Nat.one_mul]
    · next zero =>
      rw [beq_iff_eq] at zero
      omega
  unfold Form.ofBits at h
  simp only [powers] at h
  unfold Binary.word
  split at h
  · split at h <;> cases h
  split at h
  · next zero =>
    cases h
    refine ⟨⟨by dsimp only; omega, le_rfl, fun h => absurd rfl h⟩, ?_⟩
    dsimp only
    rw [sign, if_pos (by omega)]
    omega
  · next positive =>
    cases h
    refine ⟨⟨by dsimp only; omega, by dsimp only; omega, fun _ => Nat.le_add_right _ _⟩, ?_⟩
    have field : (Binary.leastExponent + ((bits.toNat / 2 ^ 52 % 2 ^ 11 - 1 : Nat) : Int) -
        Binary.leastExponent + 1).toNat = bits.toNat / 2 ^ 52 % 2 ^ 11 := by omega
    dsimp only
    rw [sign, if_neg (by omega), field]
    omega

theorem Form.ofFloat_injective {x y : Float} {negative : Bool} {b : Binary}
    (hx : Form.ofFloat x = .finite negative b) (hy : Form.ofFloat y = .finite negative b) :
    x = y := by
  have same : x.toBits = y.toBits := UInt64.toNat_inj.1
    ((Form.ofBits_eq_finite hx).2.trans (Form.ofBits_eq_finite hy).2.symm)
  cases x with | ofModel x => cases y with | ofModel y => cases x; cases y; cases same; rfl

open Float.Model UnpackedFloat in
theorem Form.exists_finite {x : Float} (h : x.isFinite) :
    ∃ negative b, Form.ofFloat x = .finite negative b := by
  unfold Form.ofFloat Form.ofBits
  dsimp only
  split
  · next full =>
    have exponent : @unpackExponent Format.binary64 x.toBits.toBitVec = -1#_ := by
      refine BitVec.eq_of_toNat_eq ?_
      have field : (@unpackExponent Format.binary64 x.toBits.toBitVec).toNat =
          x.toBits.toNat / 2 ^ 52 % 2 ^ 11 := by
        simp [unpackExponent, Nat.shiftRight_eq_div_pow]
      exact field.trans full
    have infinite : x.isFinite = false := by
      refine (congrArg UnpackedFloat.isFinite (if_pos exponent)).trans ?_
      split <;> rfl
    exact absurd h (infinite ▸ Bool.false_ne_true)
  split
  · exact ⟨_, _, rfl⟩
  · exact ⟨_, _, rfl⟩

-- ---------------------------------------------------------------------------
-- Texts
-- ---------------------------------------------------------------------------

theorem Plain.chars {text : List Char} {q : ℚ} (h : Plain text q) :
    (∀ c ∈ text, c.isDigit ∨ c = '.') ∧ ∃ c ∈ text.head?, c.isDigit := by
  have head {whole rest : List Char} (hw : AllDigits whole) (hn : whole ≠ []) :
      ∃ c ∈ (whole ++ rest).head?, c.isDigit := by
    obtain ⟨c, more, rfl⟩ := List.exists_cons_of_ne_nil hn
    exact ⟨c, rfl, hw c List.mem_cons_self⟩
  cases h with
  | whole hw hn =>
    refine ⟨fun c hc => .inl (hw c hc), ?_⟩
    simpa using @head _ [] hw hn
  | point hw hn hf =>
    refine ⟨fun c hc => ?_, head hw hn⟩
    rcases List.mem_append.1 hc with hc | hc
    · exact .inl (hw c hc)
    · rcases List.mem_cons.1 hc with rfl | hc
      · exact .inr rfl
      · exact .inl (hf c hc)

theorem toList_write {x : Float} {negative : Bool} {b : Binary}
    (h : Form.ofFloat x = .finite negative b) :
    (Layout.plain.write x).toList =
      (if negative then ['-'] else []) ++ Layout.plain.writeScaled b.shortest := by
  unfold Layout.write
  dsimp only
  rw [h]
  dsimp only
  split <;> simp

/-- The text of a finite double starts with a digit or a minus, and points and digits follow. -/
theorem write_chars {x : Float} (hx : x.isFinite) :
    (∀ c ∈ (Layout.plain.write x).toList, c.isDigit ∨ c = '.' ∨ c = '-') ∧
      ∃ c ∈ (Layout.plain.write x).toList.head?, c.isDigit ∨ c = '-' := by
  obtain ⟨negative, b, form⟩ := Form.exists_finite hx
  obtain ⟨chars, first⟩ := (plain_writeScaled b.shortest).chars
  rw [toList_write form]
  cases negative with
  | true =>
    refine ⟨fun c hc => ?_, '-', rfl, .inr rfl⟩
    rcases List.mem_cons.1 hc with rfl | hc
    · exact .inr (.inr rfl)
    · exact (chars c hc).imp_right .inl
  | false =>
    refine ⟨fun c hc => (chars c hc).imp_right .inl, ?_⟩
    exact first.imp fun c hc => ⟨hc.1, .inl hc.2⟩

/-- The shortest decimal tells the magnitude. -/
theorem Binary.shortest_injective {b b' : Binary} (hb : b.Canonical) (hb' : b'.Canonical)
    (h : b.shortest.value = b'.shortest.value) : b = b' := by
  have zero {b : Binary} (hb : b.Canonical) (hm : b.mantissa = 0) :
      b = ⟨0, leastExponent⟩ ∧ b.shortest.value = 0 := by
    have exponent : b.exponent = leastExponent := by
      by_contra more
      have := hb.normal more
      omega
    refine ⟨?_, by simp [shortest, hm, Scaled.value]⟩
    cases b
    simp_all
  by_cases hm : b.mantissa = 0 <;> by_cases hm' : b'.mantissa = 0
  · rw [(zero hb hm).1, (zero hb' hm').1]
  · have := (covers_shortest hb' hm').pos hm'
    rw [← h, (zero hb hm).2] at this
    exact absurd this (lt_irrefl 0)
  · have := (covers_shortest hb hm).pos hm
    rw [h, (zero hb' hm').2] at this
    exact absurd this (lt_irrefl 0)
  · exact (covers_shortest hb hm).eq hb hb' (h ▸ covers_shortest hb' hm')

theorem write_injective {x y : Float} (hx : x.isFinite) (hy : y.isFinite)
    (h : Layout.plain.write x = Layout.plain.write y) : x = y := by
  obtain ⟨negative, b, form⟩ := Form.exists_finite hx
  obtain ⟨negative', b', form'⟩ := Form.exists_finite hy
  have texts : (if negative then ['-'] else []) ++ Layout.plain.writeScaled b.shortest =
      (if negative' then ['-'] else []) ++ Layout.plain.writeScaled b'.shortest := by
    rw [← toList_write form, ← toList_write form', h]
  -- A minus is no digit, so the signs agree.
  have minus {s s' : Scaled} : '-' :: Layout.plain.writeScaled s ≠ Layout.plain.writeScaled s' := by
    intro same
    obtain ⟨c, first, digit⟩ := (plain_writeScaled s').chars.2
    rw [← same] at first
    cases first
    exact absurd digit (by decide)
  have signs : negative = negative' := by
    cases negative <;> cases negative'
    · rfl
    · exact absurd texts.symm minus
    · exact absurd texts minus
    · rfl
  subst signs
  have value := congrArg spelled (List.append_cancel_left texts)
  rw [spelled_writeScaled, spelled_writeScaled] at value
  have same : b = b' := Binary.shortest_injective (Form.ofBits_eq_finite form).1
    (Form.ofBits_eq_finite form').1 value
  exact Form.ofFloat_injective form (same ▸ form')

end Lox.Decimal
