import RomanArithmetic.Proofs.Evaluation
import RomanArithmetic.Proofs.Subtrees

/-!
# What can become of a text

A text that is handed to the calculator has a value, or cannot be read, or is empty; and under a
limit on written numbers one may be too long on the way to the value. Nothing else can happen
(`RomanArithmetic.evaluate_text_outcomes`). Most faults that an evaluation can end with are for
items that do not fit together: an operand that is missing, an operator that is not in the table, a
text where a number is needed. The parser makes no tree with such items, and not only the tree as a
whole has a value: nothing is faulty about any of its nodes
(`RomanArithmetic.everywhere_sound_of_parse_eq_ok`). There are two reasons. A fault in a part would
be the fault of the whole; and where a decimal place is looked up by the name of its rule and valued
by its text, the outcome is that of its parts, because nothing but symbols stands in a place.

That a number is too long is no matter of the items and does happen: a product of thousands can be
as long as one likes (`RomanArithmetic.evaluate_thousands_standard`).

Of a text that is not empty only the characters count that are no separators. A text of nothing but
separators is therefore not empty, but read as the empty text, in which nothing is found.
-/

namespace RomanArithmetic

/-! ### Places are written with symbols -/

namespace Tree

/-- Nothing but symbols stands in a node of a decimal place. -/
def Spelled : Tree → Prop
  | leaf _ _ _ => True
  | node R p _ ts => R.isPlace = true → ∃ w, ts = symbols p w

theorem spelled_node_of_not_place {R : Rule} {p q : Nat} {ts : List Tree} (h : R.isPlace = false) :
    (node R p q ts).Spelled := fun hR => absurd (h.symm.trans hR) Bool.false_ne_true

theorem Parsed.spelled {t : Tree} (h : t.Parsed) : t.Spelled := by
  cases h with
  | leaf _ => exact trivial
  | @place _ _ w _ => exact fun _ => ⟨w, rfl⟩
  | numeral _ | calculation _ => exact spelled_node_of_not_place rfl
  | @stretch c _ _ h =>
    obtain ⟨ts, he⟩ := h.exists_node
    rw [he]
    exact spelled_node_of_not_place (by cases c <;> rfl)

end Tree

/-! ### Nothing is faulty -/

/-- A place is valued by what its symbols spell, however many there are. -/
theorem Rule.act_of_isPlace {R : Rule} (h : R.isPlace = true) (limit : DigitLimit)
    (items : List Item) :
    R.act limit items = R.act limit [.symbol (items.flatMap Item.spelling)] := by
  cases R with
  | thousands | hundreds | tens | ones => simp [act, Item.spelling]
  | numeral | factor | term | expression | calculation => exact absurd h Bool.false_ne_true

/-- **The rule of a place is found by its name.** -/
theorem Rule.actOnSpelling_name {R : Rule} (h : R.isPlace = true) (limit : DigitLimit)
    (w : List Char) :
    actOnSpelling limit R.name.toList w = (R.act limit [.symbol w]).outcome := by
  rw [actOnSpelling, String.ofList_toList, ofName?_name, Option.filter_some_pos h]

namespace Tree

/-- **Nothing is faulty about a node**: it comes to an item, or under a limit a number is too long;
and if it is the node of a decimal place, looking up the rule by its name does the same for the text
of the node. -/
def Sound (t : Tree) : Prop :=
  ∃ item, (t.evaluate .unlimited).outcome = .ok item ∧ ∀ limit,
    ((t.evaluate limit).outcome = .ok item ∨
      (t.evaluate limit).outcome = .error (.tooLong limit.digits)) ∧
    ∀ R p q ts, t = node R p q ts → R.isPlace = true →
      Rule.actOnSpelling limit R.name.toList t.text = (t.evaluate limit).outcome

/-- The rule of a place, looked up by its name, does what the node does. -/
theorem Spelled.actOnSpelling_name {R : Rule} {p q : Nat} {ts : List Tree}
    (hs : (node R p q ts).Spelled) (hR : R.isPlace = true) (limit : DigitLimit) :
    Rule.actOnSpelling limit R.name.toList (node R p q ts).text =
      ((node R p q ts).evaluate limit).outcome := by
  obtain ⟨w, rfl⟩ := hs hR
  rw [evaluate, evaluateAll_symbols, Run.mk_ok_bind, Rule.act_of_isPlace hR,
    Item.flatMap_spelling_symbols, text, textAll_symbols, Rule.actOnSpelling_name hR]

theorem Spelled.sound {t : Tree} {item : Item} {steps : List Step} (hs : t.Spelled)
    (h : t.evaluate .unlimited = ⟨.ok item, steps⟩) : t.Sound := by
  refine ⟨item, by rw [h], fun limit => ⟨?_, ?_⟩⟩
  · rw [← cut_evaluate, h]
    by_cases hsteps : ∀ step ∈ steps, step.Writable limit
    · exact Or.inl (by rw [Run.cut_of_writable hsteps])
    · exact Or.inr (by rw [Run.cut_of_not_writable hsteps])
  · rintro R p q ts rfl hR
    exact hs.actOnSpelling_name hR limit

/-- Where a tree comes to something, nothing is faulty about anything in it. -/
theorem everywhere_sound {t : Tree} {item : Item} {steps : List Step} (hs : t.Everywhere Spelled)
    (h : t.evaluate .unlimited = ⟨.ok item, steps⟩) : t.Everywhere Sound := by
  refine everywhere_iff.mpr fun x hx => ?_
  obtain ⟨item, steps, hx'⟩ := everywhere_iff.mp (everywhere_evaluates h) x hx
  exact (everywhere_iff.mp hs x hx).sound hx'

end Tree

/-! ### Products of thousands -/

/-- The product of one thousand and some more, from left to right. -/
def Expr.thousands : Nat → Expr
  | 0 => .number 1000
  | k + 1 => .binary .mul (thousands k) (.number 1000)

theorem Expr.value_thousands (k : Nat) : (thousands k).value = 1000 ^ (k + 1) := by
  induction k with
  | zero => rfl
  | succ k ih =>
    rw [thousands, value, ih, pow_succ _ (k + 1)]
    rfl

/-- **A product of thousands fits a limit if its value can be written**, because nothing on the way
to it is greater. -/
theorem Expr.fits_thousands_iff {limit : DigitLimit} (k : Nat) :
    (thousands k).Fits limit ↔ limit.Allows (1000 ^ (k + 1)) := by
  have hone : limit.Allows 1000 := limit.allows_of_natAbs_lt (by decide)
  induction k with
  | zero => exact iff_of_true trivial hone
  | succ k ih =>
    have hvalue := value_thousands (k + 1)
    constructor
    · rintro ⟨-, -, -, -, hresult⟩
      rwa [← hvalue]
    · intro hresult
      have hless : limit.Allows (1000 ^ (k + 1)) := by
        refine hresult.of_natAbs_le ?_
        rw [Int.natAbs_pow, Int.natAbs_pow]
        exact Nat.pow_le_pow_right (by decide) (Nat.le_succ _)
      refine ⟨ih.mpr hless, trivial, ?_, hone, ?_⟩
      · rwa [value_thousands]
      · rwa [← hvalue] at hresult

/-- The letters of a product of thousands, behind the first one. -/
theorem intersperse_replicate_succ (k : Nat) : (List.replicate (k + 1) 'M').intersperse '*' =
    ['M'] ++ (List.replicate k ['*', 'M']).flatten := by
  induction k with
  | zero => rfl
  | succ k ih =>
    have hstep : (List.replicate (k + 2) 'M').intersperse '*' =
        'M' :: '*' :: (List.replicate (k + 1) 'M').intersperse '*' := rfl
    rw [hstep, ih, List.replicate_succ, List.flatten_cons]
    rfl

/-- **Letters with multiplication signs between them** write a product of thousands. -/
theorem writes_thousands (k : Nat) :
    Writes .expression ((List.replicate (k + 1) 'M').intersperse '*') (.thousands k) := by
  have hthousand : Writes .factor ['M'] (.number 1000) :=
    writes_number (by decide : 1 ≤ 1000) (by decide)
  have hterm : ∀ k, Writes .term (['M'] ++ (List.replicate k ['*', 'M']).flatten)
      (.thousands k) := by
    intro k
    induction k with
    | zero => exact hthousand.single .multiplicative
    | succ k ih =>
      rw [List.replicate_succ', List.flatten_append, ← List.append_assoc]
      exact (Writes.concat Level.mul_mem_operators ih hthousand :)
  rw [intersperse_replicate_succ]
  exact (hterm k).single .additive

/-! ### The outcomes of an evaluation -/

variable {text : List Char} {tree : Tree}

/-- **Nothing is faulty about any node of a parse tree.** -/
theorem everywhere_sound_of_parse_eq_ok (h : parse text = .ok tree) :
    tree.Everywhere Tree.Sound := by
  obtain ⟨e, ⟨-, _, hv, -⟩, -⟩ := exists_means_of_parse_eq_ok h
  have hparsed := everywhere_parsed_of_parse_eq_ok h
  exact Tree.everywhere_sound (hparsed.mono fun _ => Tree.Parsed.spelled) hv

/-- **A text has a value, or a number is too long, or it cannot be read.** -/
theorem evaluateText_cases (limit : DigitLimit) (text : List Char) :
    (Accepted text ∧ Fits limit text ∧ ∃ v, evaluateText limit text = .ok v) ∨
    (Accepted text ∧ ¬Fits limit text ∧
      evaluateText limit text = .error (.faulty (.tooLong limit.digits))) ∨
    (¬Accepted text ∧ ∃ failure, parse text = .error failure ∧ failure.text = text ∧
      evaluateText limit text = .error (.unreadable failure)) := by
  cases h : parse text with
  | ok tree =>
    have haccepted : Accepted text := ⟨tree, h⟩
    obtain ⟨v, hv⟩ := accepted_iff_exists_comesTo.mp haccepted
    by_cases hfits : Fits limit text
    · exact Or.inl ⟨haccepted, hfits, v, hv.eq_ok limit hfits⟩
    · exact Or.inr (Or.inl ⟨haccepted, hfits, hv.eq_error limit hfits⟩)
  | error failure =>
    have hno : ¬Accepted text := fun ⟨tree, htree⟩ => by cases h.symm.trans htree
    exact Or.inr (Or.inr ⟨hno, failure, rfl, (explains_of_parse_eq_error h).1,
      evaluateText_of_parse_eq_error h⟩)

/-- In the empty text a numeral or a bracket is missing, at the very beginning. -/
theorem evaluateText_nil (limit : DigitLimit) :
    evaluateText limit [] = .error (.unreadable ⟨[], 0, [.letter, .symbol ['(']]⟩) :=
  rfl

theorem evaluate_text_of_ne_nil {x : List Char} (hx : x ≠ []) (limit : DigitLimit) :
    evaluate limit (.text x) = evaluateText limit (stripSeparators x) := by
  obtain ⟨c, rest, rfl⟩ := List.exists_cons_of_ne_nil hx
  rfl

/-- **The outcomes of an evaluation.** The empty text is refused as empty, and no other. Any other
text has the outcome of the text without its separators: a value, or a failure to read that text, or
under a limit on written numbers which the text does not fit, that a number is too long. Without a
limit there is nothing that does not fit. A parse tree has a value, and nothing is faulty about any
of its nodes. A text of separators alone fails at its very beginning. -/
theorem evaluate_text_outcomes (x : List Char) :
    let text := stripSeparators x
    (∀ limit, evaluate limit (.text x) = .error .empty ↔ x = []) ∧
    (x ≠ [] → ∀ limit, evaluate limit (.text x) = evaluateText limit text) ∧
    (x ≠ [] → ∀ limit,
      (Accepted text ∧ Fits limit text ∧ ∃ v, evaluate limit (.text x) = .ok v) ∨
      (Accepted text ∧ ¬Fits limit text ∧
        evaluate limit (.text x) = .error (.faulty (.tooLong limit.digits))) ∨
      (¬Accepted text ∧ ∃ failure, parse text = .error failure ∧ failure.text = text ∧
        evaluate limit (.text x) = .error (.unreadable failure))) ∧
    Fits .unlimited text ∧
    (∀ text tree, parse text = .ok tree →
      (∃ v steps, tree.value .unlimited = ⟨.ok v, steps⟩) ∧ tree.Everywhere Tree.Sound) ∧
    (x ≠ [] → (∀ c ∈ x, isSeparator c = true) → ∃ failure, failure.position = 0 ∧
      failure.text = [] ∧ ∀ limit, evaluate limit (.text x) = .error (.unreadable failure)) := by
  intro text
  refine ⟨fun limit => ⟨fun h => ?_, fun h => h ▸ rfl⟩, evaluate_text_of_ne_nil,
    fun hx limit => ?_, fits_unlimited text, fun text tree h => ?_, fun hx hsep => ?_⟩
  · by_contra hx
    rw [evaluate_text_of_ne_nil hx] at h
    rcases evaluateText_cases limit text with ⟨-, -, v, hv⟩ | ⟨-, -, hf⟩ | ⟨-, failure, -, -, hf⟩
    · cases h.symm.trans hv
    · cases h.symm.trans hf
    · cases h.symm.trans hf
  · rw [evaluate_text_of_ne_nil hx]
    exact evaluateText_cases limit text
  · obtain ⟨e, he, -⟩ := exists_means_of_parse_eq_ok h
    exact ⟨⟨e.value, he.exists_value_eq e.fits_unlimited⟩, everywhere_sound_of_parse_eq_ok h⟩
  · have hstrip : stripSeparators x = [] :=
      List.filter_eq_nil_iff.mpr fun c hc => by simp [hsep c hc]
    refine ⟨⟨[], 0, [.letter, .symbol ['(']]⟩, rfl, rfl, fun limit => ?_⟩
    rw [evaluate_text_of_ne_nil hx, hstrip]
    exact evaluateText_nil limit

/-- Two separators are not the empty text, but are read as it. -/
theorem evaluate_text_outcomes_separators :
    let x := [' ', '\u2003']
    evaluate .standard (.text x) ≠ .error .empty ∧
      evaluate .standard (.text x) = evaluateText .standard [] ∧
      ∃ failure, failure.position = 0 ∧ failure.text = [] ∧
        ∀ limit, evaluate limit (.text x) = .error (.unreadable failure) := by
  intro x
  have hx : x ≠ [] := by decide
  have hall : x.all isSeparator = true := by decide
  obtain ⟨hempty, hstrip, -, -, -, hsep⟩ := evaluate_text_outcomes x
  exact ⟨fun h => hx ((hempty .standard).mp h), hstrip hx .standard,
    hsep hx (List.all_eq_true.mp hall)⟩

/-- A product of thousands that cannot be written is not evaluated. -/
theorem evaluate_thousands {limit : DigitLimit} {k : Nat} (h : ¬limit.Allows (1000 ^ (k + 1))) :
    evaluate limit (.text ((List.replicate (k + 1) 'M').intersperse '*')) =
      .error (.faulty (.tooLong limit.digits)) := by
  have hstrip : stripSeparators ((List.replicate (k + 1) 'M').intersperse '*') =
      (List.replicate (k + 1) 'M').intersperse '*' := by
    rw [intersperse_replicate_succ]
    refine List.filter_eq_self.mpr fun c hc => ?_
    obtain rfl | rfl : c = 'M' ∨ c = '*' := by
      simp only [List.mem_append, List.mem_singleton, List.mem_flatten, List.mem_replicate] at hc
      rcases hc with rfl | ⟨_, ⟨-, rfl⟩, hc⟩
      · exact Or.inl rfl
      · simpa [or_comm] using hc
    · decide
    · decide
  rw [evaluate_text_of_ne_nil (by simp [intersperse_replicate_succ]), hstrip]
  exact (writes_thousands k).evaluateText_eq_error (mt (Expr.fits_thousands_iff k).mp h)

/-- **A calculation without a value**: under the standard limit a product of 1434 thousands is too
long. -/
theorem evaluate_thousands_standard :
    evaluate .standard (.text ((List.replicate 1434 'M').intersperse '*')) =
      .error (.faulty (.tooLong 4300)) :=
  evaluate_thousands (k := 1433) (by decide +kernel)

end RomanArithmetic
