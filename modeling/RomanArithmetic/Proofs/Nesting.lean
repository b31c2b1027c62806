import RomanArithmetic.Proofs.Numerals
import RomanArithmetic.Language

/-!
# Outside the brackets

Where an expression ends, and where it falls into its operands, can be seen from the text alone, by
counting brackets: `RomanArithmetic.depth` is the number of brackets that are open. A stretch of a
calculation never closes a bracket that it has not opened, it leaves none open, and the operators
that stand *outside* its brackets are not those of a looser level. `RomanArithmetic.Nested` is this
property of a text, for any set of characters that are kept inside the brackets, and
`RomanArithmetic.Derives.nested` says which characters these are for each category.

What it is for is the border lemma `RomanArithmetic.Nested.notMem_of_concat_prefix`: a complete
stretch cannot be continued to a longer one by a character that has to stay inside brackets.
-/

namespace RomanArithmetic

/-- The number of brackets that a text opens and does not close. -/
def depth (w : List Char) : Int :=
  w.count '(' - w.count ')'

@[simp] theorem depth_nil : depth [] = 0 := rfl

@[simp] theorem depth_append (v w : List Char) : depth (v ++ w) = depth v + depth w := by
  simp only [depth, List.count_append]
  omega

theorem depth_cons (x : Char) (w : List Char) : depth (x :: w) = depth [x] + depth w :=
  depth_append [x] w

theorem depth_singleton {x : Char} (h₁ : x ≠ '(') (h₂ : x ≠ ')') : depth [x] = 0 := by
  simp [depth, h₁, h₂]

@[simp] theorem depth_opening : depth ['('] = 1 := by decide

@[simp] theorem depth_closing : depth [')'] = -1 := by decide

/-- No operator is written as a bracket. -/
theorem Operator.symbol_ne_bracket (op : Operator) : op.symbol ≠ '(' ∧ op.symbol ≠ ')' := by
  cases op <;> decide

/-- No operator is written as a letter. -/
theorem Operator.symbol_notMem_numeralLetters (op : Operator) : op.symbol ∉ numeralLetters := by
  cases op <;> decide

theorem Operator.depth_symbol (op : Operator) : depth [op.symbol] = 0 :=
  depth_singleton op.symbol_ne_bracket.1 op.symbol_ne_bracket.2

/-- **A text that keeps characters inside its brackets**: on the way through it no bracket is closed
that was not opened, none is open at its end, and no character of the set stands outside the
brackets. -/
structure Nested (A : Set Char) (w : List Char) : Prop where
  outside : ∀ u x, u ++ [x] <+: w → 0 ≤ depth u ∧ (depth u = 0 → x ∉ A)
  settled : depth w = 0

namespace Nested

variable {A B : Set Char} {v w : List Char} {x : Char}

theorem mono (h : Nested B w) (hAB : A ⊆ B) : Nested A w where
  outside u x hu := ⟨(h.outside u x hu).1, fun hd hx => (h.outside u x hu).2 hd (hAB hx)⟩
  settled := h.settled

theorem nil : Nested A [] where
  outside u x hu := absurd (List.prefix_nil.mp hu) (by simp)
  settled := depth_nil

/-- A character that is no bracket and is not in the set may stand anywhere. -/
theorem singleton (h₁ : x ≠ '(') (h₂ : x ≠ ')') (hx : x ∉ A) : Nested A [x] where
  outside u y hu := by
    obtain ⟨rfl, rfl⟩ : u = [] ∧ y = x := by
      cases u with
      | nil => simpa using hu
      | cons z u => exact absurd hu.length_le (by simp)
    exact ⟨Int.le_refl 0, fun _ => hx⟩
  settled := depth_singleton h₁ h₂

/-- **Two texts in a row** do not get in each other's way. -/
theorem append (hv : Nested A v) (hw : Nested A w) : Nested A (v ++ w) where
  outside u x hu := by
    rcases prefix_append_iff.mp hu with h | ⟨t, ht, htw⟩
    · exact hv.outside u x h
    · rcases List.eq_nil_or_concat t with rfl | ⟨t, y, rfl⟩
      · rw [List.append_nil] at ht
        exact hv.outside u x (ht ▸ List.prefix_rfl)
      · rw [List.concat_eq_append, ← List.append_assoc] at ht
        obtain ⟨rfl, hxy⟩ := List.append_inj' ht rfl
        obtain rfl : x = y := by simpa using hxy
        rw [depth_append, hv.settled, Int.zero_add]
        exact hw.outside t x (by simpa using htw)
  settled := by rw [depth_append, hv.settled, hw.settled, Int.add_zero]

/-- **Brackets hide what is between them.** -/
theorem brackets (hw : Nested B w) (h : '(' ∉ A) : Nested A ('(' :: w ++ [')']) where
  outside u x hu := by
    cases u with
    | nil =>
      obtain rfl : x = '(' := by simpa using hu
      exact ⟨Int.le_refl 0, fun _ => h⟩
    | cons y u =>
      obtain ⟨rfl, hu'⟩ : y = '(' ∧ u ++ [x] <+: w ++ [')'] := by simpa using hu
      have hpos : 0 < depth ('(' :: u) := by
        rw [← List.singleton_append, depth_append, depth_opening]
        rcases List.prefix_concat_iff.mp hu' with he | hpre
        · obtain ⟨rfl, -⟩ := List.append_inj' he rfl
          have := hw.settled
          omega
        · have := (hw.outside u x hpre).1
          omega
      exact ⟨Int.le_of_lt hpos, fun h0 => absurd h0 (by omega)⟩
  settled := by
    rw [← List.singleton_append, depth_append, depth_append, depth_opening, depth_closing,
      hw.settled]
    rfl

/-- **The border of a text**: what continues it to a longer one is no character that has to stay
inside brackets. -/
theorem notMem_of_concat_prefix (hv : Nested A v) (hw : Nested A w) (h : v ++ [x] <+: w) : x ∉ A :=
  (hw.outside v x h).2 hv.settled

theorem of_forall (h : ∀ x ∈ w, x ≠ '(' ∧ x ≠ ')' ∧ x ∉ A) : Nested A w := by
  induction w with
  | nil => exact nil
  | cons x w ih =>
    obtain ⟨h₁, h₂, hx⟩ := h x List.mem_cons_self
    rw [← List.singleton_append]
    exact (singleton h₁ h₂ hx).append (ih fun y hy => h y (List.mem_cons_of_mem x hy))

end Nested

/-! ### Stretches of a calculation -/

namespace Category

/-- The characters that a stretch of some category keeps inside its brackets. -/
def inner : Category → Set Char
  | expression => {')'}
  | term => {')', '+', '-'}
  | factor => {')', '+', '-', '*'}

end Category

/-- A letter is neither a bracket nor an operator. -/
theorem nested_of_letters {c : Category} {w : List Char} (h : ∀ x ∈ w, x ∈ numeralLetters) :
    Nested c.inner w := by
  refine Nested.of_forall ?_
  intro x hx
  have hx := h x hx
  simp only [numeralLetters, List.mem_cons, List.not_mem_nil, or_false] at hx
  rcases hx with rfl | rfl | rfl | rfl | rfl | rfl | rfl <;>
    cases c <;> simp [Category.inner]

/-- **Operators of a looser level stand inside brackets only.** -/
theorem Derives.nested {c : Category} {w : List Char} {v : Int} (h : Derives c w v) :
    Nested c.inner w := by
  induction h with
  | numeral hw => exact nested_of_letters fun x => hw.mem_numeralLetters
  | brackets _ ih => exact ih.brackets (by simp [Category.inner])
  | factor _ ih => exact ih.mono (by simp [Category.inner, Set.insert_subset_iff])
  | mul _ _ ihs iht =>
    rw [← List.singleton_append, ← List.append_assoc]
    refine (ihs.append (.singleton ?_ ?_ ?_)).append (iht.mono ?_) <;>
      simp [Category.inner, Set.insert_subset_iff]
  | term _ ih => exact ih.mono (by simp [Category.inner])
  | add _ _ ihs iht | sub _ _ ihs iht =>
    rw [← List.singleton_append, ← List.append_assoc]
    refine (ihs.append (.singleton ?_ ?_ ?_)).append (iht.mono ?_) <;>
      simp [Category.inner]

theorem Derives.ne_nil {c : Category} {w : List Char} {v : Int} (h : Derives c w v) : w ≠ [] := by
  induction h with
  | numeral hw =>
    obtain ⟨d, -, hne, -⟩ := Numeral.isNumeral_iff.mp hw
    exact hne
  | brackets _ _ => simp
  | factor _ ih | term _ ih => exact ih
  | mul _ _ _ _ | add _ _ _ _ | sub _ _ _ _ => simp

end RomanArithmetic
