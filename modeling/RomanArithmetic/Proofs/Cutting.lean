import RomanArithmetic.Proofs.Evaluation

/-!
# Cutting a calculation at an operator

An operator that stands outside all brackets cuts a text in two. The text is a calculation exactly
if both parts are, and its value can be computed from theirs as long as the cut does not tear apart
what belongs together (`RomanArithmetic.evaluateText_cut`).

The operator of the cut need not be the one that is applied last: in a derivation, what stands
behind the cut is attached to what stands before it piece by piece. So from the whole to the parts
(`RomanArithmetic.Derives.exists_of_cut`) we look for the operator that the cut is at, or the
operand that it goes through, and put the pieces on either side together again. From the parts to
the whole (`RomanArithmetic.Derives.append_operator`) the operands of the second part are attached
to the first one by one, and the value comes out right if the operator regroups with those behind
it: `x + (y - z)` is `(x + y) - z`, but `x - (y + z)` is not `(x - y) + z`.
-/

namespace RomanArithmetic

/-! ### The characters outside the brackets -/

/-- The characters of a text that stand outside all brackets, if a number of brackets are open in
front of the text. -/
def outsideFrom (n : Int) : List Char → List Char
  | [] => []
  | x :: w =>
    let rest := outsideFrom (n + depth [x]) w
    if n = 0 then x :: rest else rest

/-- The characters of a text that stand outside all brackets. -/
def outside (w : List Char) : List Char :=
  outsideFrom 0 w

theorem mem_outsideFrom_cons {n : Int} {x y : Char} {w : List Char} :
    x ∈ outsideFrom n (y :: w) ↔ (n = 0 ∧ x = y) ∨ x ∈ outsideFrom (n + depth [y]) w := by
  rw [outsideFrom]
  by_cases hn : n = 0 <;> simp [hn]

theorem mem_outsideFrom_iff {n : Int} {x : Char} {w : List Char} :
    x ∈ outsideFrom n w ↔ ∃ u v, w = u ++ x :: v ∧ n + depth u = 0 := by
  induction w generalizing n with
  | nil => simp [outsideFrom]
  | cons y w ih =>
    rw [mem_outsideFrom_cons, ih]
    constructor
    · rintro (⟨rfl, rfl⟩ | ⟨u, v, rfl, hd⟩)
      · exact ⟨[], w, rfl, rfl⟩
      · exact ⟨y :: u, v, rfl, by rw [depth_cons]; omega⟩
    · rintro ⟨u, v, hu, hd⟩
      cases u with
      | nil =>
        obtain ⟨rfl, rfl⟩ := List.cons.inj hu
        exact Or.inl ⟨by simpa using hd, rfl⟩
      | cons z u =>
        obtain ⟨rfl, rfl⟩ := List.cons.inj hu
        exact Or.inr ⟨u, v, rfl, by rw [depth_cons] at hd; omega⟩

/-- **A character stands outside the brackets** where all brackets in front of it are closed. -/
theorem mem_outside_iff {x : Char} {w : List Char} :
    x ∈ outside w ↔ ∃ u v, w = u ++ x :: v ∧ depth u = 0 := by
  simp only [outside, mem_outsideFrom_iff, Int.zero_add]

/-! ### Operators that can be regrouped -/

/-- **An operator regroups with another one behind it**: it makes no difference which of the two is
applied first. -/
def Operator.Regroups (op next : Operator) : Prop :=
  ∀ x y z, next.apply (op.apply x y) z = op.apply x (next.apply y z)

theorem Operator.regroups_add {next : Operator} (h : next ∈ Level.additive.operators) :
    add.Regroups next := by
  intro x y z
  simp only [Level.operators, List.mem_cons, List.not_mem_nil, or_false] at h
  rcases h with rfl | rfl <;> simp only [apply] <;> omega

theorem Operator.regroups_mul {next : Operator} (h : next ∈ Level.multiplicative.operators) :
    mul.Regroups next := by
  intro x y z
  obtain rfl : next = mul := by simpa [Level.operators] using h
  exact Int.mul_assoc x y z

/-! ### From the parts to the whole -/

namespace Derives

variable {c : Category} {level : Level} {op : Operator} {a b s t w : List Char} {v x y : Int}

/-- **A row behind a row.** An operator may join two rows of its level; if it regroups with the
operators of the level, it applies to their values. -/
theorem append_operator (hop : op ∈ level.operators) (hs : Derives level.whole s x)
    (ht : Derives level.whole t y) : ∃ v, Derives level.whole (s ++ op.symbol :: t) v ∧
      ((∀ next ∈ level.operators, op.Regroups next) → v = op.apply x y) := by
  induction ht using Derives.induction_on_row with
  | single ht => exact ⟨_, hs.concat hop ht, fun _ => rfl⟩
  | concat hnext _ hu ih =>
    obtain ⟨v, hv, hvalue⟩ := ih
    refine ⟨_, by simpa using hv.concat hnext hu, fun hregroups => ?_⟩
    rw [hvalue hregroups, hregroups _ hnext]

/-- A sum times a term: the last term of the sum is multiplied. -/
theorem exists_mul_term (hs : Derives Level.additive.whole s x) (ht : Derives .term t y) :
    ∃ v, Derives .expression (s ++ Operator.mul.symbol :: t) v := by
  have hmul := Level.mul_mem_operators
  induction hs using Derives.induction_on_row with
  | single hs =>
    obtain ⟨v, hv, -⟩ := append_operator hmul hs ht
    exact ⟨v, hv.term⟩
  | concat hop hs hu _ =>
    obtain ⟨v, hv, -⟩ := append_operator hmul hu ht
    exact ⟨_, by simpa [Level.whole] using hs.concat hop hv⟩

/-- A sum times a sum: the last term of the one is multiplied by the first term of the other. -/
theorem exists_mul (hs : Derives .expression s x) (ht : Derives Level.additive.whole t y) :
    ∃ v, Derives .expression (s ++ Operator.mul.symbol :: t) v := by
  induction ht using Derives.induction_on_row with
  | single ht => exact exists_mul_term hs ht
  | concat hop _ hu ih =>
    obtain ⟨v, hv⟩ := ih
    exact ⟨_, by simpa [Level.whole] using Derives.concat hop hv hu⟩

/-! ### From the whole to the parts -/

/-- Nothing cuts a factor: its operators all stand inside brackets. -/
theorem depth_ne_zero_of_factor (h : Derives .factor w v) (hw : w = a ++ op.symbol :: b) :
    depth a ≠ 0 := by
  intro ha
  refine (h.nested.outside a op.symbol ⟨b, by simp [hw]⟩).2 ha ?_
  cases op <;> simp [Category.inner, Operator.symbol]

/-- **An operator outside the brackets cuts a stretch into two stretches of the same category.** -/
theorem exists_of_cut (h : Derives c w v) (hw : w = a ++ op.symbol :: b) (ha : depth a = 0) :
    (∃ x, Derives c a x) ∧ ∃ y, Derives c b y := by
  induction h using Derives.induction_on_levels generalizing a b with
  | numeral h => exact absurd ha (depth_ne_zero_of_factor (.numeral h) hw)
  | brackets h _ => exact absurd ha (depth_ne_zero_of_factor h.brackets hw)
  | single level _ ih =>
    obtain ⟨⟨x, hx⟩, y, hy⟩ := ih hw ha
    exact ⟨⟨x, hx.single level⟩, y, hy.single level⟩
  | @concat level next hnext s t _ _ hs ht ihs iht =>
    rcases append_cons_cases hw with ⟨rfl, -, rfl⟩ | ⟨m, rfl, rfl⟩ | ⟨m, rfl, rfl⟩
    · -- the cut is at this operator
      exact ⟨⟨_, hs⟩, _, ht.single level⟩
    · -- the cut is in front of it, and the operand behind it belongs to the second part
      obtain ⟨hx, y, hy⟩ := ihs rfl ha
      exact ⟨hx, _, hy.concat hnext ht⟩
    · -- the cut is inside the last operand
      have hm : depth m = 0 := by
        rw [depth_append, depth_cons, hs.nested.settled, next.depth_symbol] at ha
        omega
      obtain ⟨⟨x, hx⟩, y, hy⟩ := iht rfl hm
      exact ⟨⟨_, hs.concat hnext hx⟩, y, hy.single level⟩

/-- **A row without operators is an operand.** -/
theorem part_of_notMem_outside (h : Derives level.whole w v)
    (hno : ∀ op ∈ level.operators, op.symbol ∉ outside w) : Derives level.part w v := by
  induction h using Derives.induction_on_row with
  | single hw => exact hw
  | concat hop hs _ _ =>
    exact absurd (mem_outside_iff.mpr ⟨_, _, rfl, hs.nested.settled⟩) (hno _ hop)

/-- An expression that does not add or subtract outside the brackets is a term. -/
theorem term_of_notMem_outside (h : Derives .expression w v) (hadd : '+' ∉ outside w)
    (hsub : '-' ∉ outside w) : Derives .term w v := by
  have hrow : Derives Level.additive.whole w v := h
  refine hrow.part_of_notMem_outside fun op hop => ?_
  simp only [Level.operators, List.mem_cons, List.not_mem_nil, or_false] at hop
  rcases hop with rfl | rfl
  · exact hadd
  · exact hsub

/-- **An operator outside the brackets joins calculations and nothing else.** -/
theorem exists_cut_iff (ha : depth a = 0) :
    (∃ v, Derives .expression (a ++ op.symbol :: b) v) ↔
      (∃ x, Derives .expression a x) ∧ ∃ y, Derives .expression b y := by
  constructor
  · rintro ⟨v, hv⟩
    exact hv.exists_of_cut rfl ha
  · rintro ⟨⟨x, hx⟩, y, hy⟩
    have hadditive : op ∈ Level.additive.operators →
        ∃ v, Derives .expression (a ++ op.symbol :: b) v := by
      intro hop
      obtain ⟨v, hv, -⟩ := append_operator hop hx hy
      exact ⟨v, hv⟩
    cases op with
    | add => exact hadditive Level.add_mem_operators
    | sub => exact hadditive Level.sub_mem_operators
    | mul => exact exists_mul hx hy

end Derives

/-! ### The value of a text that is cut -/

/-- **Evaluation commutes with cutting a text at an operator outside the brackets.** There is a
value exactly if both parts have one. A sum is the sum of the parts. A difference is that of the
parts if the second one does not go on adding, and a product if neither of them adds. Under a limit
on written numbers the whole has this value if it fits the limit; that both parts fit is not enough
for it. -/
theorem evaluateText_cut {a : List Char} (ha : a.count '(' = a.count ')') (op : Operator)
    (b : List Char) :
    ((∃ v, ComesTo (a ++ op.symbol :: b) v) ↔ (∃ x, ComesTo a x) ∧ ∃ y, ComesTo b y) ∧
    ∀ x y, ComesTo a x → ComesTo b y →
      (op = .add → ComesTo (a ++ op.symbol :: b) (x + y)) ∧
      (op = .sub → '+' ∉ outside b → '-' ∉ outside b →
        ComesTo (a ++ op.symbol :: b) (x - y)) ∧
      (op = .mul → '+' ∉ outside a → '-' ∉ outside a → '+' ∉ outside b → '-' ∉ outside b →
        ComesTo (a ++ op.symbol :: b) (x * y)) := by
  simp only [comesTo_iff_derives]
  refine ⟨Derives.exists_cut_iff (by rw [depth, ha]; omega), fun x y hx hy => ⟨?_, ?_, ?_⟩⟩
  · rintro rfl
    obtain ⟨v, hv, he⟩ := Derives.append_operator Level.add_mem_operators hx hy
    rwa [he fun _ => Operator.regroups_add] at hv
  · rintro rfl hadd hsub
    exact hx.sub (hy.term_of_notMem_outside hadd hsub)
  · rintro rfl hadd hsub hadd' hsub'
    have hx := hx.term_of_notMem_outside hadd hsub
    have hy := hy.term_of_notMem_outside hadd' hsub'
    obtain ⟨v, hv, he⟩ := Derives.append_operator Level.mul_mem_operators hx hy
    rw [he fun _ => Operator.regroups_mul] at hv
    exact hv.term

/-- The signs inside brackets do not count, neither before the cut nor behind it. -/
theorem evaluateText_cut_between_groups :
    let a := ['(', 'X', '-', 'I', ')']
    let b := ['(', 'I', '+', 'I', ')', '*', 'I', 'I']
    a.count '(' = a.count ')' ∧ ComesTo a 9 ∧ ComesTo b 4 ∧
      '+' ∉ outside b ∧ '-' ∉ outside b ∧ ComesTo (a ++ '-' :: b) 5 := by
  intro a b
  have ha : ComesTo a 9 := comesTo_iff_unlimited.mpr rfl
  have hb : ComesTo b 4 := comesTo_iff_unlimited.mpr rfl
  have hadd : '+' ∉ outside b := by decide
  have hsub : '-' ∉ outside b := by decide
  obtain ⟨-, hvalue⟩ := @evaluateText_cut a rfl .sub b
  exact ⟨rfl, ha, hb, hadd, hsub, (hvalue 9 4 ha hb).2.1 rfl hadd hsub⟩

end RomanArithmetic
