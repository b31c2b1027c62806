import Mathlib.Tactic.Linarith
import RomanArithmetic.Proofs.OneToOne

/-!
# How great a value can be

A text of `n` characters has a value whose square is at most `1000 ^ (n + 1)`, and products of
thousands reach this bound (`RomanArithmetic.mul_self_le_of_accepted`).

The exponent is the one with which an induction closes: what an operator joins to a text of
`m + 1 + n` characters may have a square of `1000 ^ (m + n + 2)`, which is the product of the bounds
of the two operands and leaves nothing to spare for a product
(`RomanArithmetic.Operator.mul_self_apply_le`). Sums and differences have room enough, and so do
brackets. That the square is bounded and not the value spares a distinction of signs.
-/

namespace RomanArithmetic

/-! ### Numerals -/

/-- **A letter counts for at most a thousand**, in the spelling of a digit. -/
theorem Place.mul_le_mul_length_digit {place : Place} {low mid top : Char}
    (h : place.Distinct low mid top) {unit d : Nat} (hunit : unit ≤ 100) (hd : d ≤ 9) :
    unit * d ≤ 1000 * (place.digit d).length := by
  rcases Nat.eq_zero_or_pos d with rfl | hpos
  · exact Nat.zero_le _
  · have hlen := List.length_pos_iff.mpr (digit_ne_nil h hpos hd)
    calc unit * d ≤ 100 * 9 := Nat.mul_le_mul hunit hd
      _ ≤ 1000 * (place.digit d).length := by omega

namespace Numeral

variable {w : List Char} {v : Int}

/-- **A letter counts for at most a thousand.** -/
theorem Digits.value_le_mul_length (d : Digits) : d.value ≤ 1000 * d.text.length := by
  have hC := Place.mul_le_mul_length_digit Place.distinct_hundreds (le_refl 100) d.hundreds_le
  have hX := Place.mul_le_mul_length_digit Place.distinct_tens (by decide : 10 ≤ 100) d.tens_le
  have hI := Place.mul_le_mul_length_digit Place.distinct_ones (by decide : 1 ≤ 100) d.ones_le
  simp only [value, text, List.length_append, List.length_replicate]
  omega

/-- **The square of a numeral**: one letter is worth at most a thousand, and no numeral of two
letters or more is worth four thousand. -/
theorem mul_self_le_of_isNumeral (h : IsNumeral w v) : v * v ≤ 1000 ^ (w.length + 1) := by
  obtain ⟨d, rfl, hne, rfl⟩ := isNumeral_iff.mp h
  have hnonneg := d.value_nonneg
  have hlen := List.length_pos_iff.mpr hne
  rcases Nat.eq_or_lt_of_le hlen with hone | htwo
  · have hle : d.value ≤ 1000 := by
      have := d.value_le_mul_length
      omega
    calc d.value * d.value ≤ 1000 * 1000 := mul_le_mul hle hle hnonneg (by decide)
      _ = 1000 ^ (d.text.length + 1) := by rw [← hone]; rfl
  · have hle := d.value_le
    calc d.value * d.value ≤ 3999 * 3999 := mul_le_mul hle hle hnonneg (by decide)
      _ ≤ 1000 ^ 3 := by decide
      _ ≤ 1000 ^ (d.text.length + 1) := pow_le_pow_right₀ (by decide) (by omega)

end Numeral

/-! ### Operators -/

/-- **Bounds of squares multiply**: what an operator makes of two integers is bounded by the product
of their bounds, if these are not very small. -/
theorem Operator.mul_self_apply_le (op : Operator) {a b A B : Int} (ha : a * a ≤ A)
    (hb : b * b ≤ B) (hA : 4 ≤ A) (hB : 4 ≤ B) : op.apply a b * op.apply a b ≤ A * B := by
  have hsum : 2 * (A + B) ≤ A * B := by
    linarith [mul_nonneg (sub_nonneg.mpr hA) (sub_nonneg.mpr hB)]
  cases op with
  | add =>
    calc (a + b) * (a + b) ≤ 2 * (a * a + b * b) := by linarith [mul_self_nonneg (a - b)]
      _ ≤ 2 * (A + B) := by omega
      _ ≤ A * B := hsum
  | sub =>
    calc (a - b) * (a - b) ≤ 2 * (a * a + b * b) := by linarith [mul_self_nonneg (a + b)]
      _ ≤ 2 * (A + B) := by omega
      _ ≤ A * B := hsum
  | mul =>
    calc a * b * (a * b) = a * a * (b * b) := mul_mul_mul_comm a b a b
      _ ≤ A * B := mul_le_mul ha hb (mul_self_nonneg b) (by omega)

/-! ### Derivations -/

variable {c : Category} {w : List Char} {v : Int}

/-- The bound is not small, even for a single character. -/
theorem four_le_bound (w : List Char) : (4 : Int) ≤ 1000 ^ (w.length + 1) := by
  calc (4 : Int) ≤ 1000 ^ 1 := by decide
    _ ≤ 1000 ^ (w.length + 1) := pow_le_pow_right₀ (by decide) (by omega)

/-- **The length of a text bounds the square of its value.** -/
theorem Derives.mul_self_le (h : Derives c w v) : v * v ≤ 1000 ^ (w.length + 1) := by
  induction h using Derives.induction_on_levels with
  | numeral h => exact Numeral.mul_self_le_of_isNumeral h
  | brackets _ ih => exact ih.trans (pow_le_pow_right₀ (by decide) (by simp))
  | single _ _ ih => exact ih
  | @concat _ op _ s t a b _ _ ihs iht =>
    -- the operator is the character by which the second exponent is more than the length
    have hlen : (s ++ op.symbol :: t).length + 1 = (s.length + 1) + (t.length + 1) := by
      rw [List.length_append, List.length_cons]
      omega
    rw [hlen, pow_add]
    exact op.mul_self_apply_le ihs iht (four_le_bound s) (four_le_bound t)

/-! ### The bound -/

/-- **The length of a text bounds its value**, and the bound is reached: the square of the value of
a text of `n` characters is at most `1000 ^ (n + 1)`, and it is that much for every product of
thousands. Such a product has its value under every limit on written numbers that allows the value
itself, and otherwise it is too long. -/
theorem mul_self_le_of_accepted :
    (∀ text : List Char, Accepted text →
      ∃ v, ComesTo text v ∧ v * v ≤ 1000 ^ (text.length + 1)) ∧
    ∀ k : Nat, 1 ≤ k →
      let text := (List.replicate k 'M').intersperse '*'
      text.length = 2 * k - 1 ∧ (1000 ^ k * 1000 ^ k : Int) = 1000 ^ (text.length + 1) ∧
        evaluateText .unlimited text = .ok (1000 ^ k) ∧ ∀ limit,
          (limit.Allows (1000 ^ k) → evaluateText limit text = .ok (1000 ^ k)) ∧
          (¬limit.Allows (1000 ^ k) →
            evaluateText limit text = .error (.faulty (.tooLong limit.digits))) := by
  constructor
  · intro text h
    obtain ⟨v, hv⟩ := accepted_iff_exists_comesTo.mp h
    exact ⟨v, hv, hv.derives.mul_self_le⟩
  · intro k hk text
    obtain ⟨k, rfl⟩ := Nat.exists_eq_add_of_le' hk
    have hlen : text.length = 2 * k + 1 := by
      simp only [text, intersperse_replicate_succ]
      simp
      omega
    have hwrites : Writes .expression text (.thousands k) := writes_thousands k
    have hok : ∀ limit, DigitLimit.Allows limit (1000 ^ (k + 1)) →
        evaluateText limit text = .ok (1000 ^ (k + 1)) := fun limit hallows => by
      rw [hwrites.evaluateText_eq ((Expr.fits_thousands_iff k).mpr hallows), Expr.value_thousands]
    refine ⟨by omega, ?_, hok _ (DigitLimit.unlimited_allows _), fun limit => ⟨hok limit, ?_⟩⟩
    · rw [hlen, ← pow_add]
      congr 1
      omega
    · exact fun hlong => hwrites.evaluateText_eq_error (mt (Expr.fits_thousands_iff k).mp hlong)

/-- The product of two thousands. -/
theorem mul_self_le_of_accepted_thousands :
    let text := ['M', '*', 'M']
    Accepted text ∧ evaluateText .standard text = .ok 1000000 ∧
      (∃ v, ComesTo text v ∧ v * v ≤ 1000 ^ 4) ∧ (1000000 * 1000000 : Int) = 1000 ^ 4 := by
  intro text
  have h : Accepted text := ⟨_, rfl⟩
  obtain ⟨hbound, hreached⟩ := mul_self_le_of_accepted
  obtain ⟨-, hsquare, -, hvalue⟩ := hreached 2 (by decide)
  exact ⟨h, (hvalue .standard).1 (by decide +kernel), hbound text h, hsquare⟩

end RomanArithmetic
