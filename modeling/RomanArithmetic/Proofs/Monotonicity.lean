import Mathlib.Data.Int.ConditionallyCompleteOrder
import RomanArithmetic.Proofs.Contexts
import RomanArithmetic.Proofs.OneToOne

/-!
# Calculations without subtraction

Without a minus sign every calculation is at least one, and it becomes greater if one of its
numerals is replaced by that of a greater number (`RomanArithmetic.evaluateText_lt_of_numeral_lt`).

The second fact needs the first one, for all parts of the calculation: a product grows with one of
its operands only because the other one is positive. What grows with its hole is a text with a hole
(`RomanArithmetic.Context.value_lt`), and a numeral that is seen in a text is such a hole, because
no derivation can cut a run of letters that has no letter next to it
(`RomanArithmetic.MaximalRun.exists_hole`).
-/

namespace RomanArithmetic

/-! ### Operators on positive integers -/

namespace Operator

variable {op : Operator} {a b : Int}

theorem one_le_apply (hop : op ≠ .sub) (ha : 1 ≤ a) (hb : 1 ≤ b) : 1 ≤ op.apply a b := by
  cases op with
  | add => exact ha.trans (le_add_of_nonneg_right (by omega))
  | sub => exact absurd rfl hop
  | mul => exact one_le_mul_of_one_le_of_one_le ha hb

/-- What an operator makes grows with its left operand. -/
theorem strictMono_apply_left (hop : op ≠ .sub) (hb : 1 ≤ b) :
    StrictMono fun i => op.apply i b := by
  intro i j hij
  cases op with
  | add => exact add_lt_add_left hij b
  | sub => exact absurd rfl hop
  | mul => exact mul_lt_mul_of_pos_right hij (by omega)

/-- What an operator makes grows with its right operand. -/
theorem strictMono_apply_right (hop : op ≠ .sub) (ha : 1 ≤ a) : StrictMono (op.apply a) := by
  intro i j hij
  cases op with
  | add => exact add_lt_add_right hij a
  | sub => exact absurd rfl hop
  | mul => exact mul_lt_mul_of_pos_left hij (by omega)

theorem ne_sub_of_symbol_ne (h : op.symbol ≠ '-') : op ≠ .sub := by
  rintro rfl
  exact h rfl

end Operator

/-! ### Derivations without subtraction -/

variable {c : Category} {w u r s t v : List Char} {x : Int} {y : Char} {e e' : Expr}
  {f : Expr → Expr}

/-- Where there is no minus sign, there is none in the text in front of an operator nor in the one
behind it, and the operator is none. -/
theorem notMem_minus_append_operator {op : Operator} (h : '-' ∉ s ++ op.symbol :: t) :
    '-' ∉ s ∧ op ≠ .sub ∧ '-' ∉ t := by
  simp only [List.mem_append, List.mem_cons, not_or] at h
  obtain ⟨hs, hop, ht⟩ := h
  exact ⟨hs, Operator.ne_sub_of_symbol_ne (Ne.symm hop), ht⟩

/-- **Without subtraction every value is positive**, also that of every part. -/
theorem Derives.one_le (h : Derives c w x) (hsub : '-' ∉ w) : 1 ≤ x := by
  induction h using Derives.induction_on_levels with
  | numeral h => exact (Numeral.isNumeral_iff_eq_ofNat.mp h).1
  | brackets _ ih => exact ih fun hmem => hsub (by simp [hmem])
  | single _ _ ih => exact ih hsub
  | concat _ _ _ ihs iht =>
    obtain ⟨hs, hop, ht⟩ := notMem_minus_append_operator hsub
    exact Operator.one_le_apply hop (ihs hs) (iht ht)

/-- **Zero and negative values come from subtraction.** -/
theorem minus_mem_of_comesTo_nonpos (h : ComesTo w x) (hx : x ≤ 0) : '-' ∈ w := by
  by_contra hsub
  have hpos := h.derives.one_le hsub
  omega

/-- **Without subtraction the value grows with what is in the hole.** -/
theorem Context.value_lt (h : Context c u v f) (hu : '-' ∉ u) (hv : '-' ∉ v)
    (he : e.value < e'.value) : (f e).value < (f e').value := by
  induction h with
  | hole => exact he
  | brackets _ ih => exact ih (fun hmem => hu (by simp [hmem])) fun hmem => hv (by simp [hmem])
  | single _ _ ih => exact ih hu hv
  | left _ _ ht ih =>
    obtain ⟨hv, hop, hnot⟩ := notMem_minus_append_operator hv
    exact Operator.strictMono_apply_left hop (ht.derives.one_le hnot) (ih hu hv)
  | right _ hs _ ih =>
    obtain ⟨hnot, hop, hu⟩ := notMem_minus_append_operator hu
    exact Operator.strictMono_apply_right hop (hs.derives.one_le hnot) (ih hu hv)

/-! ### Runs of letters -/

/-- **A run of letters between two texts**, which is as long as it can be: there is no letter next
to it on either side. -/
structure MaximalRun (u r v : List Char) : Prop where
  ne_nil : r ≠ []
  letters : ∀ y ∈ r, y ∈ numeralLetters
  before : ∀ y ∈ u.getLast?, y ∉ numeralLetters
  behind : ∀ y ∈ v.head?, y ∉ numeralLetters

namespace MaximalRun

theorem notMem (hr : MaximalRun u r v) (hy : y ∉ numeralLetters) : y ∉ r := fun hmem =>
  hy (hr.letters y hmem)

/-- **A run is not cut** by another character: it ends in front of the character, or begins behind
it, and is maximal in what is left there. -/
theorem cut (hr : MaximalRun u r v) (hy : y ∉ numeralLetters) (h : s ++ y :: t = u ++ r ++ v) :
    (∃ m, MaximalRun u r m ∧ s = u ++ r ++ m ∧ v = m ++ y :: t) ∨
      ∃ m, MaximalRun m r v ∧ u = s ++ y :: m ∧ t = m ++ r ++ v := by
  obtain ⟨z, r, rfl⟩ := List.exists_cons_of_ne_nil hr.ne_nil
  have hyr := hr.notMem hy
  rw [List.append_assoc, List.cons_append] at h
  rcases append_cons_cases h with ⟨-, rfl, -⟩ | ⟨m, rfl, hm⟩ | ⟨m, rfl, rfl⟩
  · exact absurd List.mem_cons_self hyr
  · -- the character is behind all other letters of the run as well
    rcases List.append_eq_append_iff.mp hm with ⟨k, rfl, rfl⟩ | ⟨k, rfl, hk⟩
    · refine Or.inl ⟨k, ⟨hr.ne_nil, hr.letters, hr.before, ?_⟩, by simp, rfl⟩
      intro x hx
      exact hr.behind x (by simp [Option.mem_def.mp hx])
    · cases k with
      | nil =>
        obtain rfl : v = y :: t := by simpa using hk.symm
        exact Or.inl ⟨[], ⟨hr.ne_nil, hr.letters, hr.before, by simp⟩, by simp, by simp⟩
      | cons x k =>
        obtain ⟨rfl, -⟩ := List.cons.inj hk
        exact absurd (by simp) hyr
  · refine Or.inr ⟨m, ⟨hr.ne_nil, hr.letters, ?_, hr.behind⟩, rfl, by simp⟩
    intro x hx
    exact hr.before x (by simp [List.getLast?_cons, Option.mem_def.mp hx])

/-- In a text of letters the run is all of it. -/
theorem eq_nil_of_letters (hr : MaximalRun u r v) (h : ∀ y ∈ u ++ r ++ v, y ∈ numeralLetters) :
    u = [] ∧ v = [] := by
  constructor
  · rcases List.eq_nil_or_concat u with rfl | ⟨u, y, rfl⟩
    · rfl
    · exact absurd (h y (by simp)) (hr.before y (by simp))
  · cases v with
    | nil => rfl
    | cons y v => exact absurd (h y (by simp)) (hr.behind y (by simp))

/-- **A run of letters is not cut**, because there is no letter next to it. -/
theorem uncut (r : List Char) : Uncut r fun u v => MaximalRun u r v where
  numeral := by
    intro u v x hr h
    exact hr.eq_nil_of_letters fun y => h.mem_numeralLetters
  brackets := by
    intro u v w x hr _ hw
    -- the run is behind the opening bracket and in front of the closing one
    have hopening : [] ++ '(' :: (w ++ [')']) = u ++ r ++ v := hw
    rcases hr.cut (by decide) hopening with ⟨k, hk, hnil, -⟩ | ⟨u, hu, rfl, hclosing⟩
    · exact absurd hnil (by simp [hk.ne_nil])
    rcases hu.cut (by decide) hclosing with ⟨v, hv, rfl, rfl⟩ | ⟨k, hk, -, hnil⟩
    · exact Or.inr ⟨u, v, hv, rfl, rfl, rfl⟩
    · exact absurd hnil (by simp [hk.ne_nil])
  operator := by
    intro u v s t x c op hr _ hw
    exact hr.cut op.symbol_notMem_numeralLetters hw

/-- **A run of letters is a hole.** In a derivation of a text with a maximal run of letters in it
the run is a numeral, and without the numeral the text is one with a hole. -/
theorem exists_hole (hr : MaximalRun u r v) (h : Derives c (u ++ r ++ v) x) :
    ∃ e f, Writes .factor r e ∧ IsNumeral r e.value ∧ Context c u v f ∧ (f e).value = x := by
  obtain ⟨e, f, he, hcontext, hx⟩ := (uncut r).exists_hole h hr rfl
  have hnumeral := he.derives.isNumeral fun y hy => notMem_signs_of_mem (hr.letters y hy)
  exact ⟨e, f, he, hnumeral, hcontext, hx⟩

end MaximalRun

/-! ### Greater numerals make greater values -/

variable {text : List Char}

/-- **Without subtraction a calculation is positive and grows with its numerals.** Every run of
letters in it, as long as it can be, is the numeral of a number and is read as this number; with the
numeral of a greater number in its place the calculation is again accepted, and comes to a greater
value. -/
theorem evaluateText_lt_of_numeral_lt (h : Accepted text) (hsub : '-' ∉ text) :
    (∃ x, ComesTo text x ∧ 1 ≤ x) ∧
    ∀ u r v, MaximalRun u r v → text = u ++ r ++ v →
      ∃ m : Nat, 1 ≤ m ∧ m ≤ 3999 ∧ r = Numeral.ofNat m ∧ ComesTo r m ∧
        ∀ n, m < n → n ≤ 3999 → Accepted (u ++ Numeral.ofNat n ++ v) ∧
          ∃ x y, ComesTo text x ∧ ComesTo (u ++ Numeral.ofNat n ++ v) y ∧ x < y := by
  obtain ⟨x, hx⟩ := accepted_iff_exists_comesTo.mp h
  refine ⟨⟨x, hx, hx.derives.one_le hsub⟩, ?_⟩
  rintro u r v hr rfl
  obtain ⟨e, f, he, hm, hcontext, rfl⟩ := hr.exists_hole hx.derives
  have hread : ComesTo r e.value := (he.of_tightness_le (by decide)).comesTo
  obtain ⟨hpos, hle, hspell⟩ := Numeral.isNumeral_iff_eq_ofNat.mp hm
  have hvalue : (e.value.toNat : Int) = e.value := Int.toNat_of_nonneg (by omega)
  refine ⟨e.value.toNat, by omega, by omega, hspell, by rwa [hvalue], fun n hmn hn => ?_⟩
  have hfilled := hcontext.fill (writes_number (by omega) hn)
  have hlt : e.value < (Expr.number n).value := by
    rw [Expr.value]
    omega
  exact ⟨hfilled.accepted, _, _, hx, hfilled.comesTo, hcontext.value_lt
    (fun hmem => hsub (by simp [hmem])) (fun hmem => hsub (by simp [hmem])) hlt⟩

/-- A two in a sum that is multiplied, and a four in its place. -/
theorem evaluateText_lt_of_numeral_lt_in_product :
    let u := ['(', 'X', '+']
    let v := [')', '*', 'V']
    MaximalRun u ['I', 'I'] v ∧ ComesTo (u ++ ['I', 'I'] ++ v) 60 ∧
      (∃ x, ComesTo (u ++ ['I', 'I'] ++ v) x ∧ 1 ≤ x) ∧ Accepted (u ++ ['I', 'V'] ++ v) ∧
      ∃ y, ComesTo (u ++ ['I', 'V'] ++ v) y ∧ 60 < y := by
  intro u v
  have hr : MaximalRun u ['I', 'I'] v := by
    constructor <;> simp [u, v, numeralLetters]
  have h : Accepted (u ++ ['I', 'I'] ++ v) := ⟨_, rfl⟩
  have hsixty : ComesTo (u ++ ['I', 'I'] ++ v) 60 := comesTo_iff_unlimited.mpr rfl
  have htwo : ComesTo ['I', 'I'] 2 := comesTo_iff_unlimited.mpr rfl
  obtain ⟨hpos, hgrows⟩ := evaluateText_lt_of_numeral_lt h (by decide)
  obtain ⟨m, -, -, -, hm, hgreater⟩ := hgrows u ['I', 'I'] v hr rfl
  obtain rfl : 2 = m := Int.ofNat.inj (htwo.unique hm)
  obtain ⟨haccepted, x, y, hx, hy, hlt⟩ := hgreater 4 (by decide) (by decide)
  obtain rfl : 60 = x := hsixty.unique hx
  exact ⟨hr, hsixty, hpos, haccepted, y, hy, hlt⟩

end RomanArithmetic
