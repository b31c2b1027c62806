import RomanArithmetic.Proofs.Evaluation
import RomanArithmetic.OperatorStack

/-!
# The grammar agrees with the table of operators

How tightly an operator binds and to which side it groups is said twice: by the rules of the
grammar, and by the table that `RomanArithmetic.OperatorStack` works from. On every accepted text
the two come to the same value (`RomanArithmetic.evaluate?_of_accepted`), and the stacks never lack
an operand or a bracket.

The machine with two stacks does not apply an operator when it has read its right operand, but when
it sees what comes next. So a stretch of the tokens of a calculation leaves the stacks in a state
that depends on what follows, and only its *effect* can be stated: where the operators of the
stretch come to rest on what waits below them, and what follows releases them, reading the stretch
amounts to pushing its value (`RomanArithmetic.OperatorStack.Computes`). Which operators these are
is known for each category of the grammar (`RomanArithmetic.Category.operators`), and that the table
lets them rest and releases them in the right places is checked for each level once
(`RomanArithmetic.Level.goesFirst_of_mem_whole`, `RomanArithmetic.Level.goesFirst_of_mem_part`).

Operands are valued letter by letter, which for a numeral gives its number
(`RomanArithmetic.Numeral.Digits.letterSum_text`): a letter is taken away only if a greater one
follows, and this happens inside a decimal place, never between two of them.
-/

namespace RomanArithmetic

/-! ### The worth of letters in a row -/

namespace Numeral

/-- **Letters add up** across a border: no letter in front of it is worth less than the first letter
behind it. -/
theorem letterSum_append {s t : List Char} {n : Int} (hs : ∀ x ∈ s, n ≤ letterWorth x)
    (ht : ∀ y ∈ t.head?, letterWorth y ≤ n) : letterSum (s ++ t) = letterSum s + letterSum t := by
  induction s with
  | nil => simp [letterSum]
  | cons x s ih =>
    obtain ⟨hx, hs⟩ := List.forall_mem_cons.mp hs
    cases s with
    | nil =>
      cases t with
      | nil => simp [letterSum]
      | cons y t =>
        have hle : letterWorth y ≤ letterWorth x := (ht y rfl).trans hx
        simp [letterSum, not_lt.mpr hle]
    | cons z s =>
      have ih := ih hs
      simp only [List.cons_append, letterSum] at ih ⊢
      rw [ih, Int.add_assoc]

/-- **The symbols of a place are worth what they stand for**: one, five and ten units. -/
structure Worth (place : Place) (low mid top : Char) : Prop extends place.Distinct low mid top where
  base_pos : 0 < place.base
  letterWorth_low : letterWorth low = place.base
  letterWorth_mid : letterWorth mid = 5 * place.base
  letterWorth_top : letterWorth top = 10 * place.base

theorem worth_hundreds : Worth Place.hundreds 'C' 'D' 'M' :=
  ⟨Place.distinct_hundreds, by decide, rfl, rfl, rfl⟩

theorem worth_tens : Worth Place.tens 'X' 'L' 'C' :=
  ⟨Place.distinct_tens, by decide, rfl, rfl, rfl⟩

theorem worth_ones : Worth Place.ones 'I' 'V' 'X' :=
  ⟨Place.distinct_ones, by decide, rfl, rfl, rfl⟩

namespace Worth

variable {place : Place} {low mid top : Char} {d : Nat}

/-- No letter of a digit is worth less than a unit. -/
theorem base_le (h : Worth place low mid top) :
    ∀ x ∈ place.digit d, place.base ≤ letterWorth x := by
  intro x hx
  have hpos := h.base_pos
  rcases Place.mem_of_mem_digit h.toDistinct hx with rfl | rfl | rfl
  · rw [h.letterWorth_low]
  · rw [h.letterWorth_mid]
    omega
  · rw [h.letterWorth_top]
    omega

/-- No digit begins with a letter that is worth more than five units. -/
theorem head_le (h : Worth place low mid top) :
    ∀ y ∈ (place.digit d).head?, letterWorth y ≤ 5 * place.base := by
  intro y hy
  have hpos := h.base_pos
  have hcases : y = low ∨ y = mid := by
    unfold Place.digit at hy
    split at hy <;> simp [h.low_eq, h.mid_eq, h.top_eq] at hy <;> tauto
  rcases hcases with rfl | rfl
  · rw [h.letterWorth_low]
    omega
  · rw [h.letterWorth_mid]

/-- **The letters of a digit add up to the digit**, in units of the place. -/
theorem letterSum_digit (h : Worth place low mid top) (hd : d ≤ 9) :
    letterSum (place.digit d) = d * place.base := by
  have hpos := h.base_pos
  have hlow := h.letterWorth_low
  have hmid := h.letterWorth_mid
  have htop := h.letterWorth_top
  interval_cases d <;>
    simp [Place.digit, h.low_eq, h.mid_eq, h.top_eq, letterSum, hlow, hmid, htop] <;> omega

end Worth

/-- **A numeral is worth its number**, letter by letter: the places in front of a border are written
with letters that are worth more than those with which the place behind it may begin. -/
theorem Digits.letterSum_text (d : Digits) : letterSum d.text = d.value := by
  have hM : ∀ x ∈ List.replicate d.thousands 'M', 1000 ≤ letterWorth x := fun x hx =>
    List.eq_of_mem_replicate hx ▸ Int.le_refl 1000
  have hC : ∀ x ∈ List.replicate d.thousands 'M' ++ Place.hundreds.digit d.hundreds,
      100 ≤ letterWorth x := List.forall_mem_append.mpr
    ⟨fun x hx => le_trans (by decide) (hM x hx), worth_hundreds.base_le⟩
  have hX : ∀ x ∈ List.replicate d.thousands 'M' ++ Place.hundreds.digit d.hundreds ++
      Place.tens.digit d.tens, 10 ≤ letterWorth x := List.forall_mem_append.mpr
    ⟨fun x hx => le_trans (by decide) (hC x hx), worth_tens.base_le⟩
  have hthousands : letterSum (List.replicate d.thousands 'M') = 1000 * d.thousands := by
    have := d.thousands_le
    interval_cases d.thousands <;> decide
  rw [text, letterSum_append hX fun y hy => (worth_ones.head_le y hy).trans (by decide),
    letterSum_append hC fun y hy => (worth_tens.head_le y hy).trans (by decide),
    letterSum_append hM fun y hy => (worth_hundreds.head_le y hy).trans (by decide), hthousands,
    worth_hundreds.letterSum_digit d.hundreds_le, worth_tens.letterSum_digit d.tens_le,
    worth_ones.letterSum_digit d.ones_le, value]
  simp only [Place.hundreds, Place.tens, Place.ones]
  ring

end Numeral

/-! ### Tokens -/

namespace Token

/-- A run of letters goes on as long as there are letters. -/
theorem ofTextFrom?_append_of_letters {w : List Char} (h : ∀ x ∈ w, x ∈ numeralLetters)
    (run rest : List Char) : ofTextFrom? run (w ++ rest) = ofTextFrom? (run ++ w) rest := by
  induction w generalizing run with
  | nil => simp
  | cons x w ih =>
    obtain ⟨hx, hw⟩ := List.forall_mem_cons.mp h
    rw [List.cons_append, ofTextFrom?, if_pos hx, ih hw]
    simp

/-- Letters are one operand. -/
theorem ofText?_of_letters {w : List Char} (h : ∀ x ∈ w, x ∈ numeralLetters) :
    ofText? w = some (ofRun w) := by
  have hrun := ofTextFrom?_append_of_letters h [] []
  rwa [List.append_nil] at hrun

/-- **Tokens do not reach across a character that is no letter.** -/
theorem ofTextFrom?_append {run s t : List Char} {x : Char} {token : Token} {ts us : List Token}
    (hx : x ∉ numeralLetters) (htoken : ofChar? x = some token) (hs : ofTextFrom? run s = some ts)
    (ht : ofText? t = some us) : ofTextFrom? run (s ++ x :: t) = some (ts ++ token :: us) := by
  induction s generalizing run ts with
  | nil =>
    obtain rfl : ofRun run = ts := by simpa [ofTextFrom?] using hs
    rw [ofText?] at ht
    simp [ofTextFrom?, hx, htoken, ht]
  | cons y s ih =>
    rw [List.cons_append, ofTextFrom?]
    rw [ofTextFrom?] at hs
    split
    · next hy => exact ih (by rwa [if_pos hy] at hs)
    · next hy =>
      rw [if_neg hy] at hs
      split at hs
      · next token' ts' htoken' hs' =>
        obtain rfl : ofRun run ++ token' :: ts' = ts := by simpa using hs
        simp [htoken', ih hs']
      · exact absurd hs (by simp)

end Token

/-! ### The two stacks -/

/-- The operators that a stretch of some category may have outside its brackets. -/
def Category.operators : Category → List Operator
  | expression => Operator.all
  | term => Level.multiplicative.operators
  | factor => []

namespace Level

theorem operators_subset_whole (level : Level) : level.operators ⊆ level.whole.operators := by
  cases level <;> decide

theorem operators_part_subset (level : Level) :
    level.part.operators ⊆ level.whole.operators := by
  cases level <;> decide

open OperatorStack in
/-- **An operator of a level comes after all that its left operand has.** -/
theorem goesFirst_of_mem_whole (level : Level) : ∀ op ∈ level.whole.operators,
    ∀ next ∈ level.operators, goesFirst op next = true := by
  cases level <;> decide

open OperatorStack in
/-- **An operator of a level comes after all that its right operand has.** -/
theorem goesFirst_of_mem_part (level : Level) : ∀ op ∈ level.operators,
    ∀ next ∈ level.part.operators, goesFirst op next = false := by
  cases level <;> decide

end Level

namespace OperatorStack

variable {op : Operator} {ts us rest : List Token} {operands : List Int} {pending : List Pending}
  {a b v : Int} {c : Category} {level : Level}

/-- An operator comes to rest on what waits: nothing of it is applied before. -/
def Rests (op : Operator) : List Pending → Prop
  | .operator waiting :: _ => goesFirst waiting op = false
  | _ => True

/-- What comes next releases an operator that waits on top. -/
def Released (op : Operator) : List Token → Prop
  | [] => True
  | .closing :: _ => True
  | .operator next :: _ => goesFirst op next = true
  | _ => False

theorem run_operator_of_rests (h : Rests op pending) :
    run (.operator op :: ts) operands pending = run ts operands (.operator op :: pending) := by
  cases pending with
  | nil => simp [run, applyBefore]
  | cons waiting pending =>
    cases waiting with
    | opening => simp [run, applyBefore]
    | operator waiting =>
      have h : goesFirst waiting op = false := h
      simp [run, applyBefore, h]

theorem run_of_released (h : Released op rest) :
    run rest (b :: a :: operands) (.operator op :: pending) =
      run rest (op.apply a b :: operands) pending := by
  cases rest with
  | nil => simp [run, finish, applyTop]
  | cons token rest =>
    cases token with
    | closing => simp [run, close, applyTop]
    | operator next =>
      have h : goesFirst op next = true := h
      simp [run, applyBefore, applyTop, h]
    | operand _ | opening => exact absurd h id

/-- **Tokens compute a value** as a stretch of some category: where its operators rest on what waits
and are released by what comes next, the tokens have the effect of the value. -/
def Computes (c : Category) (ts : List Token) (v : Int) : Prop :=
  ∀ rest operands pending, (∀ op ∈ c.operators, Rests op pending ∧ Released op rest) →
    run (ts ++ rest) operands pending = run rest (v :: operands) pending

namespace Computes

theorem operand (v : Int) : Computes .factor [.operand v] v := fun _ _ _ _ => rfl

/-- Nothing rests on a bracket, and a bracket releases everything. -/
theorem brackets (h : Computes .expression ts v) :
    Computes .factor (.opening :: ts ++ [.closing]) v := by
  intro rest operands pending _
  have hinner := h (.closing :: rest) operands (.opening :: pending) fun _ _ => ⟨trivial, trivial⟩
  simpa [run, close] using hinner

theorem single (level : Level) (h : Computes level.part ts v) : Computes level.whole ts v :=
  fun rest operands pending hrest =>
    h rest operands pending fun op hop => hrest op (level.operators_part_subset hop)

/-- **A row that grows**: the operator in front of the last operand releases what comes before, and
everything in the last operand rests on it. -/
theorem concat (hop : op ∈ level.operators) (hs : Computes level.whole ts a)
    (ht : Computes level.part us b) :
    Computes level.whole (ts ++ .operator op :: us) (op.apply a b) := by
  intro rest operands pending hrest
  have hwhole := level.operators_subset_whole hop
  calc run (ts ++ .operator op :: us ++ rest) operands pending
      = run (ts ++ .operator op :: (us ++ rest)) operands pending := by simp
    _ = run (.operator op :: (us ++ rest)) (a :: operands) pending :=
      hs _ _ _ fun o ho => ⟨(hrest o ho).1, level.goesFirst_of_mem_whole o ho op hop⟩
    _ = run (us ++ rest) (a :: operands) (.operator op :: pending) :=
      run_operator_of_rests (hrest op hwhole).1
    _ = run rest (b :: a :: operands) (.operator op :: pending) :=
      ht _ _ _ fun o ho => ⟨level.goesFirst_of_mem_part op hop o ho,
        (hrest o (level.operators_part_subset ho)).2⟩
    _ = run rest (op.apply a b :: operands) pending := run_of_released (hrest op hwhole).2

end Computes

end OperatorStack

/-- **A derivation is cut into tokens that compute its value.** -/
theorem Derives.exists_tokens {c : Category} {w : List Char} {v : Int} (h : Derives c w v) :
    ∃ ts, Token.ofText? w = some ts ∧ OperatorStack.Computes c ts v := by
  induction h using Derives.induction_on_levels with
  | numeral h =>
    obtain ⟨d, rfl, hne, rfl⟩ := Numeral.isNumeral_iff.mp h
    refine ⟨_, Token.ofText?_of_letters fun x => d.mem_numeralLetters, ?_⟩
    obtain ⟨x, w, hw⟩ := List.exists_cons_of_ne_nil hne
    rw [← d.letterSum_text, hw]
    exact .operand _
  | brackets _ ih =>
    obtain ⟨ts, hts, hv⟩ := ih
    have hclose : Token.ofText? ([] : List Char) = some [] := rfl
    have hinner := Token.ofTextFrom?_append (x := ')') (by decide) rfl hts hclose
    exact ⟨_, Token.ofTextFrom?_append (x := '(') (by decide) rfl hclose hinner, hv.brackets⟩
  | single level _ ih =>
    obtain ⟨ts, hts, hv⟩ := ih
    exact ⟨ts, hts, hv.single level⟩
  | @concat level op hop _ _ _ _ _ _ ihs iht =>
    obtain ⟨ts, hts, hs⟩ := ihs
    obtain ⟨us, hus, ht⟩ := iht
    have hletter := op.symbol_notMem_numeralLetters
    have htoken : Token.ofChar? op.symbol = some (.operator op) := by cases op <;> decide
    exact ⟨_, Token.ofTextFrom?_append hletter htoken hts hus, hs.concat hop ht⟩

/-- **The grammar agrees with the table of operators.** Every accepted text can be cut into tokens,
and working them off with two stacks neither lacks anything on the way nor ends with another value
than the one that the text comes to. So it is the value that is answered for the text, whatever the
limit on written numbers, unless one is too long. -/
theorem evaluate?_of_accepted {text : List Char} (h : Accepted text) :
    (∃ v, OperatorStack.evaluate? text = some v ∧ ComesTo text v) ∧
      ∀ limit w, evaluateText limit text = .ok w → OperatorStack.evaluate? text = some w := by
  obtain ⟨v, hv⟩ := accepted_iff_exists_comesTo.mp h
  obtain ⟨ts, hts, hcomputes⟩ := hv.derives.exists_tokens
  have hrun := hcomputes [] [] [] fun _ _ => ⟨trivial, trivial⟩
  rw [List.append_nil] at hrun
  have hvalue : OperatorStack.evaluate? text = some v := by
    rw [OperatorStack.evaluate?, hts, Option.bind_some, hrun]
    rfl
  refine ⟨⟨v, hvalue, hv⟩, fun limit w hw => ?_⟩
  rw [hvalue, hv.unique (.of_evaluateText_eq_ok hw)]

/-- Operators of both levels wait in front of a bracket, and are applied at its end and after it. -/
theorem evaluate?_of_accepted_nested :
    let text := ['X', 'L', '-', 'I', 'I', '*', '(', 'V', '-', 'I', '*', 'I', 'I', ')', '-', 'I']
    Accepted text ∧ OperatorStack.evaluate? text = some 33 ∧
      ∃ v, OperatorStack.evaluate? text = some v ∧ ComesTo text v := by
  intro text
  have h : Accepted text := ⟨_, rfl⟩
  exact ⟨h, by decide, (evaluate?_of_accepted h).1⟩

end RomanArithmetic
