import RomanArithmetic.Proofs.Outcomes

/-!
# Numbers and numerals

A text without operators and brackets is a calculation only if it is a numeral, and then it is the
greedy spelling of its value: the numbers from 1 to 3999 and the texts that can be read without
operators and brackets correspond one to one (`RomanArithmetic.evaluateText_eq_ok_iff_spelled`).

Three accounts of a numeral meet here. The grammar reads it place by place, the evaluation values
each place by the look of its text, and the spelling takes amounts away from a number. The first two
are about the four decimal digits, whose number is known to the evaluation and determines them
(`RomanArithmetic.Numeral.Digits.value_injective`); the third has been shown to spell the decimal
digits of a number, and these are the only digits that stand for it.
-/

namespace RomanArithmetic

/-! ### Texts without operators and brackets -/

/-- The characters of a calculation that are no letters: the operators and the brackets. -/
def signs : List Char :=
  ['+', '-', '*', '(', ')']

variable {w : List Char} {v : Int}

/-- **What is derived without a sign is a numeral.** Every other step of a derivation writes one. -/
theorem Derives.isNumeral {c : Category} (h : Derives c w v) (hw : ∀ x ∈ w, x ∉ signs) :
    IsNumeral w v := by
  have hop : ∀ (op : Operator) (s t : List Char), ¬∀ x ∈ s ++ op.symbol :: t, x ∉ signs := by
    intro op s t hno
    refine hno op.symbol (by simp) ?_
    cases op <;> simp [signs, Operator.symbol]
  induction h with
  | numeral h => exact h
  | brackets _ _ => exact absurd (hw '(' (by simp)) (by simp [signs])
  | factor _ ih | term _ ih => exact ih hw
  | @mul s t _ _ _ _ _ _ => exact absurd hw (hop .mul s t)
  | @add s t _ _ _ _ _ _ => exact absurd hw (hop .add s t)
  | @sub s t _ _ _ _ _ _ => exact absurd hw (hop .sub s t)

/-- **A calculation is written with letters and signs.** -/
theorem Derives.mem_letters_append_signs {c : Category} (h : Derives c w v) {x : Char}
    (hx : x ∈ w) : x ∈ numeralLetters ++ signs := by
  have hsigns : ∀ y ∈ signs, y ∈ numeralLetters ++ signs := fun _ hy =>
    List.mem_append_right _ hy
  induction h using Derives.induction_on_levels with
  | numeral h => exact List.mem_append_left _ (h.mem_numeralLetters hx)
  | brackets _ ih =>
    simp only [List.cons_append, List.mem_cons, List.mem_append, List.not_mem_nil, or_false] at hx
    rcases hx with rfl | hx | rfl
    · exact hsigns _ (by decide)
    · exact ih hx
    · exact hsigns _ (by decide)
  | single _ _ ih => exact ih hx
  | @concat _ op _ _ _ _ _ _ _ ihs iht =>
    rcases List.mem_append.mp hx with hx | hx
    · exact ihs hx
    rcases List.mem_cons.mp hx with rfl | hx
    · exact hsigns _ (by cases op <;> decide)
    · exact iht hx

/-- A letter of a numeral is no sign. -/
theorem notMem_signs_of_mem {x : Char} (hx : x ∈ numeralLetters) : x ∉ signs := by
  intro hsign
  simp only [signs, List.mem_cons, List.not_mem_nil, or_false] at hsign
  rcases hsign with rfl | rfl | rfl | rfl | rfl <;> exact absurd hx (by decide)

/-- A numeral has no signs. -/
theorem IsNumeral.notMem_signs (h : IsNumeral w v) : ∀ x ∈ w, x ∉ signs := fun _ hx =>
  notMem_signs_of_mem (h.mem_numeralLetters hx)

theorem IsNumeral.exists_writes (h : IsNumeral w v) :
    ∃ n : Nat, (n : Int) = v ∧ Writes .expression w (.number n) := by
  obtain ⟨hpos, hle, he⟩ := Numeral.isNumeral_iff_eq_ofNat.mp h
  rw [he]
  exact ⟨v.toNat, Int.toNat_of_nonneg (by omega),
    (writes_number (by omega) (by omega)).of_tightness_le (by decide)⟩

/-- **A numeral has its value under every limit**, since there is nothing to be computed. -/
theorem evaluateText_eq_ok_iff_isNumeral (limit : DigitLimit) (hw : ∀ x ∈ w, x ∉ signs) :
    evaluateText limit w = .ok v ↔ IsNumeral w v := by
  constructor
  · exact fun h => (derives_of_evaluateText_eq_ok h).1.isNumeral hw
  · intro h
    obtain ⟨n, rfl, hwrites⟩ := h.exists_writes
    exact hwrites.evaluateText_eq trivial

/-- **Numbers and numerals correspond one to one.** A text without operators and brackets has a
value exactly if it is the greedy spelling of this value, and the value is one of 1 to 3999; every
other such text cannot be read. The spelling of each of these numbers is such a text, and is read as
the number again. No limit on written numbers makes a difference. -/
theorem evaluateText_eq_ok_iff_spelled (limit : DigitLimit) :
    (∀ w : List Char, (∀ x ∈ w, x ∉ signs) →
      (∀ v : Int, evaluateText limit w = .ok v ↔ 1 ≤ v ∧ v ≤ 3999 ∧ w = Numeral.ofNat v.toNat) ∧
        ((∀ n, 1 ≤ n → n ≤ 3999 → w ≠ Numeral.ofNat n) → ∃ failure,
          parse w = .error failure ∧ evaluateText limit w = .error (.unreadable failure))) ∧
    ∀ n : Nat, 1 ≤ n → n ≤ 3999 →
      (∀ x ∈ Numeral.ofNat n, x ∉ signs) ∧
        evaluateText limit (Numeral.ofNat n) = .ok (n : Int) := by
  have hiff : ∀ w : List Char, (∀ x ∈ w, x ∉ signs) → ∀ v : Int,
      evaluateText limit w = .ok v ↔ 1 ≤ v ∧ v ≤ 3999 ∧ w = Numeral.ofNat v.toNat := fun w hw v =>
    (evaluateText_eq_ok_iff_isNumeral limit hw).trans Numeral.isNumeral_iff_eq_ofNat
  refine ⟨fun w hw => ⟨hiff w hw, fun hno => ?_⟩, fun n hpos hle => ?_⟩
  · cases hparse : parse w with
    | error failure => exact ⟨failure, rfl, evaluateText_of_parse_eq_error hparse⟩
    | ok tree =>
      obtain ⟨v, hv⟩ := Accepted.exists_derives ⟨tree, hparse⟩
      obtain ⟨hpos, hle, he⟩ := Numeral.isNumeral_iff_eq_ofNat.mp (hv.isNumeral hw)
      exact absurd he (hno v.toNat (by omega) (by omega))
  · have h := Numeral.isNumeral_ofNat hpos hle
    exact ⟨h.notMem_signs, (evaluateText_eq_ok_iff_isNumeral limit h.notMem_signs).mpr h⟩

/-- Fourteen is read as what it spells, and a nine with a one behind it spells nothing. -/
theorem evaluateText_eq_ok_iff_spelled_fourteen :
    evaluateText .standard ['X', 'I', 'V'] = .ok 14 ∧ ['X', 'I', 'V'] = Numeral.ofNat 14 ∧
      ∃ failure, parse ['I', 'X', 'I'] = .error failure ∧
        evaluateText .standard ['I', 'X', 'I'] = .error (.unreadable failure) := by
  obtain ⟨hread, hspell⟩ := evaluateText_eq_ok_iff_spelled .standard
  obtain ⟨-, hunread⟩ := hread ['I', 'X', 'I'] (by simp [signs])
  have hfourteen : ['X', 'I', 'V'] = Numeral.ofNat 14 := rfl
  refine ⟨(hspell 14 (by decide) (by decide)).2, hfourteen, hunread ?_⟩
  intro n hpos hle he
  have hn := (hspell n hpos hle).2
  rw [← he] at hn
  exact absurd hn nofun

end RomanArithmetic
