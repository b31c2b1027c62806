import RomanArithmetic.Proofs.Digits
import RomanArithmetic.Evaluation.Action
import RomanArithmetic.Grammar
import Mathlib.Tactic.Ring

/-!
# Numerals

A numeral is given by its four decimal digits (`RomanArithmetic.Numeral.Digits`). Everything else
about it is a function of them: its text, its value, and the tree that it is read as, in which a
place whose digit is zero leaves no trace. The grammar finds exactly these trees
(`RomanArithmetic.Recognizer.reads_numeral`), the evaluation gives them the value of the digits
(`RomanArithmetic.Numeral.Digits.exists_evaluate_tree`), and the greedy spelling of a number up to
3999 is the text of its digits (`RomanArithmetic.Numeral.Digits.text_ofNat`).

Neighbouring places share a symbol: the ten of one is the one of the next. Reading a place before
the next is still safe, because a place never *begins* with a symbol of the place before it.
-/

namespace RomanArithmetic

open RomanArithmetic.Tree (textAll)

/-! ### Places in a row -/

namespace Tree

/-- The node of a place that is written with a text, and nothing where nothing is written. -/
def place (R : Rule) (p : Nat) (w : List Char) : List Tree :=
  if w = [] then [] else [.node R p (p + w.length) (symbols p w)]

@[simp] theorem textAll_place (R : Rule) (p : Nat) (w : List Char) : textAll (place R p w) = w := by
  rw [place]
  split
  · next h => rw [h, textAll]
  · simp

end Tree

/-- A place that is written with one of a set of texts, or missing. -/
def Phrases.place (R : Rule) (W : Set (List Char)) : Phrases :=
  ((Phrases.words W).rule R).optional

theorem Phrases.place_iff {R : Rule} {W : Set (List Char)} (hW : [] ∉ W) {p : Nat}
    {ts : List Tree} : Phrases.place R W p ts ↔ ∃ w ∈ insert [] W, ts = Tree.place R p w := by
  constructor
  · rintro (⟨_, ⟨w, hw, rfl⟩, rfl⟩ | h)
    · refine ⟨w, Or.inr hw, ?_⟩
      rw [Tree.place, if_neg (ne_of_mem_of_not_mem hw hW), Tree.textAll_symbols]
    · exact ⟨[], Or.inl rfl, h⟩
  · rintro ⟨w, rfl | hw, rfl⟩
    · exact Or.inr rfl
    · refine Or.inl ⟨_, ⟨w, hw, rfl⟩, ?_⟩
      rw [Tree.place, if_neg (ne_of_mem_of_not_mem hw hW), Tree.textAll_symbols]

namespace Place

variable {place : Place} {low mid top : Char}

theorem digit_ne_nil (h : place.Distinct low mid top) {d : Nat} (h₁ : 1 ≤ d) (h₉ : d ≤ 9) :
    place.digit d ≠ [] := by
  interval_cases d <;> simp [digit, h.low_eq, h.mid_eq]

theorem eq_zero_of_digit_eq_nil (h : place.Distinct low mid top) {d : Nat} (h₉ : d ≤ 9)
    (hnil : place.digit d = []) : d = 0 := by
  by_contra hne
  exact digit_ne_nil h (by omega) h₉ hnil

theorem nil_notMem_digits (h : place.Distinct low mid top) : [] ∉ place.digits := by
  rintro ⟨d, h₁, h₉, hd⟩
  exact digit_ne_nil h h₁ h₉ hd.symm

/-- **A place holds one of ten digits**, where the digit zero is not written. -/
theorem place_digits_iff (h : place.Distinct low mid top) {R : Rule} {p : Nat} {ts : List Tree} :
    Phrases.place R place.digits p ts ↔ ∃ d ≤ 9, ts = Tree.place R p (place.digit d) := by
  refine (Phrases.place_iff (nil_notMem_digits h)).trans ⟨?_, ?_⟩
  · rintro ⟨_, rfl | ⟨d, _, h₉, rfl⟩, rfl⟩
    · exact ⟨0, by omega, rfl⟩
    · exact ⟨d, h₉, rfl⟩
  · rintro ⟨d, h₉, rfl⟩
    refine ⟨place.digit d, ?_, rfl⟩
    cases d with
    | zero => exact Or.inl rfl
    | succ d => exact Or.inr ⟨d + 1, by omega, h₉, rfl⟩

theorem low_mem_digits (place : Place) : place.low ∈ place.digits :=
  ⟨1, by omega, by omega, rfl⟩

theorem mem_of_mem_digit (h : place.Distinct low mid top) {d : Nat} {x : Char}
    (hx : x ∈ place.digit d) : x = low ∨ x = mid ∨ x = top := by
  unfold digit at hx
  split at hx <;> simp [h.low_eq, h.mid_eq, h.top_eq] at hx <;> tauto

theorem within_place (h : place.Distinct low mid top) (R : Rule) :
    (Phrases.place R place.digits).Within {low, mid, top} := by
  intro p ts hts x hx
  obtain ⟨d, -, rfl⟩ := (place_digits_iff h).mp hts
  rw [Tree.textAll_place] at hx
  exact mem_of_mem_digit h hx

theorem startsIn_place (h : place.Distinct low mid top) (R : Rule) :
    (Phrases.place R place.digits).StartsIn {low, mid} := by
  rintro p x ⟨ts, hts, hx⟩
  obtain ⟨w, hw, rfl⟩ := (Phrases.place_iff (nil_notMem_digits h)).mp hts
  rw [Tree.textAll_place, List.nil_append] at hx
  rw [digits_eq h] at hw
  rcases hw with rfl | ⟨_, _, rfl⟩ | ⟨_, _, rfl⟩ | ⟨_, _, rfl⟩ | ⟨_, _, rfl⟩
  · exact absurd hx (by simp)
  all_goals simp_all

/-- **The value of a digit** is the digit, in units of the place. -/
theorem value_digit (h : place.Distinct low mid top) {d : Nat} (h₁ : 1 ≤ d) (h₉ : d ≤ 9) :
    place.value (place.digit d) = d * place.base := by
  have hlm := h.low_ne_mid
  have hlt := h.low_ne_top
  have hmt := h.mid_ne_top
  interval_cases d <;>
    simp [value, digit, h.low_eq, h.mid_eq, h.top_eq, hlm, hlt, hmt, hlm.symm]

end Place

namespace Numeral

/-! ### The digits of a numeral -/

/-- **The digits of a numeral**, of which the first is at most three. -/
structure Digits where
  thousands : Nat
  hundreds : Nat
  tens : Nat
  ones : Nat
  thousands_le : thousands ≤ 3 := by omega
  hundreds_le : hundreds ≤ 9 := by omega
  tens_le : tens ≤ 9 := by omega
  ones_le : ones ≤ 9 := by omega

namespace Digits

/-- The number that the digits stand for. -/
def value (d : Digits) : Int :=
  1000 * d.thousands + 100 * d.hundreds + 10 * d.tens + d.ones

theorem value_nonneg (d : Digits) : 0 ≤ d.value := by
  rw [value]
  omega

/-- The spelling of the digits. -/
def text (d : Digits) : List Char :=
  List.replicate d.thousands 'M' ++ Place.hundreds.digit d.hundreds ++ Place.tens.digit d.tens ++
    Place.ones.digit d.ones

/-- Only zero is written with nothing. -/
theorem value_eq_zero_of_text_eq_nil {d : Digits} (h : d.text = []) : d.value = 0 := by
  obtain ⟨⟨⟨h₁, h₂⟩, h₃⟩, h₄⟩ : ((List.replicate d.thousands 'M' = [] ∧
      Place.hundreds.digit d.hundreds = []) ∧ Place.tens.digit d.tens = []) ∧
        Place.ones.digit d.ones = [] := by simpa only [text, List.append_eq_nil_iff] using h
  rw [value, (List.replicate_eq_nil_iff 'M').mp h₁,
    Place.eq_zero_of_digit_eq_nil Place.distinct_hundreds d.hundreds_le h₂,
    Place.eq_zero_of_digit_eq_nil Place.distinct_tens d.tens_le h₃,
    Place.eq_zero_of_digit_eq_nil Place.distinct_ones d.ones_le h₄]
  rfl

/-- The nodes of the places, from a position on. -/
def places (d : Digits) (p : Nat) : List Tree :=
  let w₁ := List.replicate d.thousands 'M'
  let w₂ := Place.hundreds.digit d.hundreds
  let w₃ := Place.tens.digit d.tens
  Tree.place .thousands p w₁ ++ (Tree.place .hundreds (p + w₁.length) w₂ ++
    (Tree.place .tens (p + w₁.length + w₂.length) w₃ ++
      Tree.place .ones (p + w₁.length + w₂.length + w₃.length) (Place.ones.digit d.ones)))

/-- The node of the numeral at a position. -/
def tree (d : Digits) (p : Nat) : Tree :=
  .node .numeral p (p + d.text.length) (d.places p)

@[simp] theorem textAll_places (d : Digits) (p : Nat) : textAll (d.places p) = d.text := by
  simp [places, text]

@[simp] theorem text_tree (d : Digits) (p : Nat) : (d.tree p).text = d.text := by
  rw [tree, Tree.text, textAll_places]

/-- A numeral is written with the seven letters. -/
theorem mem_numeralLetters (d : Digits) {x : Char} (hx : x ∈ d.text) : x ∈ numeralLetters := by
  simp only [text, List.mem_append, or_assoc] at hx
  rcases hx with h | h | h | h
  · rw [List.eq_of_mem_replicate h]
    decide
  · rcases Place.mem_of_mem_digit Place.distinct_hundreds h with rfl | rfl | rfl <;> decide
  · rcases Place.mem_of_mem_digit Place.distinct_tens h with rfl | rfl | rfl <;> decide
  · rcases Place.mem_of_mem_digit Place.distinct_ones h with rfl | rfl | rfl <;> decide

end Digits

theorem isNumeral_iff {w : List Char} {v : Int} :
    IsNumeral w v ↔ ∃ d : Digits, d.text = w ∧ w ≠ [] ∧ d.value = v := by
  constructor
  · rintro ⟨m, h, t, o, hm, hh, ht, ho, rfl, hne, rfl⟩
    exact ⟨⟨m, h, t, o, hm, hh, ht, ho⟩, rfl, hne, rfl⟩
  · rintro ⟨d, rfl, hne, rfl⟩
    exact ⟨d.thousands, d.hundreds, d.tens, d.ones, d.thousands_le, d.hundreds_le, d.tens_le,
      d.ones_le, rfl, hne, rfl⟩

/-- **The phrases of a numeral**: the nodes of digits that are not all zero. -/
def phrases : Phrases := fun p ts => ∃ d : Digits, d.text ≠ [] ∧ ts = [d.tree p]

/-- One to three thousands. -/
def thousandsTexts : Set (List Char) :=
  {w | ∃ n, 1 ≤ n ∧ n ≤ 3 ∧ w = List.replicate n 'M'}

theorem nil_notMem_thousandsTexts : [] ∉ thousandsTexts := by
  rintro ⟨n, h₁, -, hn⟩
  exact absurd (congrArg List.length hn) (by simp; omega)

theorem place_thousands_iff {p : Nat} {ts : List Tree} :
    Phrases.place .thousands thousandsTexts p ts ↔
      ∃ n ≤ 3, ts = Tree.place .thousands p (List.replicate n 'M') := by
  refine (Phrases.place_iff nil_notMem_thousandsTexts).trans ⟨?_, ?_⟩
  · rintro ⟨_, rfl | ⟨n, _, h₃, rfl⟩, rfl⟩
    · exact ⟨0, by omega, rfl⟩
    · exact ⟨n, h₃, rfl⟩
  · rintro ⟨n, h₃, rfl⟩
    refine ⟨List.replicate n 'M', ?_, rfl⟩
    cases n with
    | zero => exact Or.inl rfl
    | succ n => exact Or.inr ⟨n + 1, by omega, h₃, rfl⟩

theorem within_thousands : (Phrases.place .thousands thousandsTexts).Within {'M'} := by
  intro p ts hts x hx
  obtain ⟨n, -, rfl⟩ := place_thousands_iff.mp hts
  rw [Tree.textAll_place] at hx
  exact List.eq_of_mem_replicate hx

/-! ### Reading a numeral -/

/-- The places of a numeral, one after the other, each of which may be missing. -/
def placesPhrases : Phrases :=
  (Phrases.place .thousands thousandsTexts).andThen <|
    (Phrases.place .hundreds Place.hundreds.digits).andThen <|
      (Phrases.place .tens Place.tens.digits).andThen <|
        Phrases.place .ones Place.ones.digits

theorem placesPhrases_iff {p : Nat} {ts : List Tree} :
    placesPhrases p ts ↔ ∃ d : Digits, ts = d.places p := by
  constructor
  · rintro ⟨_, _, h₁, ⟨_, _, h₂, ⟨_, _, h₃, h₄, rfl⟩, rfl⟩, rfl⟩
    obtain ⟨m, hm, rfl⟩ := place_thousands_iff.mp h₁
    obtain ⟨h, hh, rfl⟩ := (Place.place_digits_iff Place.distinct_hundreds).mp h₂
    obtain ⟨t, ht, rfl⟩ := (Place.place_digits_iff Place.distinct_tens).mp h₃
    obtain ⟨o, ho, rfl⟩ := (Place.place_digits_iff Place.distinct_ones).mp h₄
    refine ⟨⟨m, h, t, o, hm, hh, ht, ho⟩, ?_⟩
    simp only [Digits.places, Tree.textAll_place]
  · rintro ⟨d, rfl⟩
    have h₁ := fun p => place_thousands_iff (p := p).mpr ⟨_, d.thousands_le, rfl⟩
    have h₂ := fun p => (Place.place_digits_iff Place.distinct_hundreds (R := .hundreds)
      (p := p)).mpr ⟨_, d.hundreds_le, rfl⟩
    have h₃ := fun p => (Place.place_digits_iff Place.distinct_tens (R := .tens)
      (p := p)).mpr ⟨_, d.tens_le, rfl⟩
    have h₄ := fun p => (Place.place_digits_iff Place.distinct_ones (R := .ones)
      (p := p)).mpr ⟨_, d.ones_le, rfl⟩
    refine ⟨_, _, h₁ _, ⟨_, _, h₂ _, ⟨_, _, h₃ _, h₄ _, rfl⟩, rfl⟩, ?_⟩
    simp only [Digits.places, Tree.textAll_place]

theorem phrases_eq : phrases = placesPhrases.nonempty.rule .numeral := by
  funext p ts
  refine propext ⟨?_, ?_⟩
  · rintro ⟨d, hne, rfl⟩
    refine ⟨_, ⟨placesPhrases_iff.mpr ⟨d, rfl⟩, by rwa [d.textAll_places]⟩, ?_⟩
    rw [d.textAll_places, Digits.tree]
  · rintro ⟨_, ⟨hp, hne⟩, rfl⟩
    obtain ⟨d, rfl⟩ := placesPhrases_iff.mp hp
    rw [d.textAll_places] at hne ⊢
    exact ⟨d, hne, rfl⟩

/-- Every letter is a numeral by itself. -/
theorem exists_text_eq_singleton {x : Char} (hx : x ∈ numeralLetters) :
    ∃ d : Digits, d.text = [x] := by
  simp only [numeralLetters, List.mem_cons, List.not_mem_nil, or_false] at hx
  rcases hx with rfl | rfl | rfl | rfl | rfl | rfl | rfl
  · exact ⟨{ thousands := 1, hundreds := 0, tens := 0, ones := 0 }, rfl⟩
  · exact ⟨{ thousands := 0, hundreds := 5, tens := 0, ones := 0 }, rfl⟩
  · exact ⟨{ thousands := 0, hundreds := 1, tens := 0, ones := 0 }, rfl⟩
  · exact ⟨{ thousands := 0, hundreds := 0, tens := 5, ones := 0 }, rfl⟩
  · exact ⟨{ thousands := 0, hundreds := 0, tens := 1, ones := 0 }, rfl⟩
  · exact ⟨{ thousands := 0, hundreds := 0, tens := 0, ones := 5 }, rfl⟩
  · exact ⟨{ thousands := 0, hundreds := 0, tens := 0, ones := 1 }, rfl⟩

theorem exists_placesPhrases_of_matches (p : Nat) {x : Char} (hx : Leaf.letter.Matches x) :
    ∃ ts, placesPhrases p ts ∧ textAll ts = [x] := by
  obtain ⟨d, hd⟩ := exists_text_eq_singleton (Leaf.matches_letter.mp hx)
  exact ⟨d.places p, placesPhrases_iff.mpr ⟨d, rfl⟩, by rw [d.textAll_places, hd]⟩

end Numeral

namespace Recognizer

open Numeral

theorem reads_place {r : Recognizer} {W : Set (List Char)} {c : Cursor} (R : Rule)
    (hr : r.Reads (Phrases.words W) c) (hW : [] ∉ W) :
    (optional (rule R r)).Reads (Phrases.place R W) c := by
  refine (hr.rule R).optional (Phrases.NeverEmpty.rule ?_)
  rintro p _ ⟨w, hw, rfl⟩
  rw [Tree.textAll_symbols]
  exact ne_of_mem_of_not_mem hw hW

theorem reads_digit {place : Place} {low mid top : Char} (h : place.Distinct low mid top)
    (R : Rule) (c : Cursor) :
    (optional (rule R place.form)).Reads (Phrases.place R place.digits) c :=
  reads_place R (Place.reads_form h c) (Place.nil_notMem_digits h)

theorem reads_thousands (c : Cursor) : (optional Grammar.thousands).Reads
    (Phrases.place .thousands thousandsTexts) c := by
  refine reads_place .thousands ?_ nil_notMem_thousandsTexts
  have hr := reads_symbol_andThen 'M' (fun c => reads_upTo_symbol 'M' 2 c) ⟨[], 0, by simp⟩ c
  have heq : ('M' :: ·) '' {w | ∃ n ≤ 2, w = List.replicate n 'M'} = thousandsTexts := by
    ext w
    constructor
    · rintro ⟨_, ⟨n, hn, rfl⟩, rfl⟩
      exact ⟨n + 1, by omega, by omega, rfl⟩
    · rintro ⟨n, h₁, h₃, rfl⟩
      obtain ⟨n, rfl⟩ := Nat.exists_eq_add_of_le' h₁
      exact ⟨_, ⟨n, by omega, rfl⟩, rfl⟩
  rwa [heq] at hr

/-- **The places of a numeral** are read one after the other. The symbols with which a place may
begin are none of those that the places before it use. -/
theorem reads_placesPhrases (c : Cursor) :
    ((optional Grammar.thousands).andThen <| (optional Grammar.hundreds).andThen <|
      (optional Grammar.tens).andThen <| optional Grammar.ones).Reads placesPhrases c := by
  have hC := reads_digit Place.distinct_hundreds .hundreds
  have hX := reads_digit Place.distinct_tens .tens
  have hI := reads_digit Place.distinct_ones .ones
  have hu : ∀ (R : Rule) (place : Place), (Phrases.place R place.digits).Uniform := fun R place =>
    (Phrases.uniform_words ⟨_, place.low_mem_digits⟩).rule.optional
  have huX := hu .tens Place.tens
  have huI := hu .ones Place.ones
  have huC := hu .hundreds Place.hundreds
  have hsI := Place.startsIn_place Place.distinct_ones .ones
  have hsX := (Place.startsIn_place Place.distinct_tens .tens).mono
    (Set.subset_union_left (t := {'I', 'V'}))
  have hsC := (Place.startsIn_place Place.distinct_hundreds .hundreds).mono
    (Set.subset_union_left (t := {'X', 'L'} ∪ {'I', 'V'}))
  have hsXI := hsX.andThen (hsI.mono Set.subset_union_right)
  have h34 := fun c => (hX c).andThen (fun _ c' _ => hI c')
    ((Place.within_place Place.distinct_tens .tens).endsBefore (by simp)) hsI huI
  have h234 := fun c => (hC c).andThen (fun _ c' _ => h34 c')
    ((Place.within_place Place.distinct_hundreds .hundreds).endsBefore (by simp)) hsXI
    (huX.andThen huI)
  exact (reads_thousands c).andThen (fun _ c' _ => h234 c')
    (within_thousands.endsBefore (by simp)) (hsC.andThen (hsXI.mono Set.subset_union_right))
    (huC.andThen (huX.andThen huI))

/-- **The grammar finds numerals.** -/
theorem reads_numeral (c : Cursor) : Grammar.numeral.Reads phrases c := by
  rw [phrases_eq]
  refine Reads.rule ?_ .numeral
  refine Reads.ahead (reads_leaf Leaf.single_letter c) (reads_placesPhrases c) ?_
    fun p x hx => exists_placesPhrases_of_matches p hx
  rintro p x ⟨ts, hts, hx⟩
  obtain ⟨d, rfl⟩ := placesPhrases_iff.mp hts
  rw [d.textAll_places] at hx
  exact Leaf.matches_letter.mpr (d.mem_numeralLetters (hx.subset (List.mem_singleton_self x)))

end Recognizer

/-! ### The value of a numeral -/

namespace Tree

variable {limit : DigitLimit}

theorem evaluateAll_append {s t : List Tree} {i j : List Item} {a b : List Step}
    (hs : evaluateAll limit s = ⟨.ok i, a⟩) (ht : evaluateAll limit t = ⟨.ok j, b⟩) :
    evaluateAll limit (s ++ t) = ⟨.ok (i ++ j), a ++ b⟩ := by
  induction s generalizing i a with
  | nil =>
    obtain ⟨rfl, rfl⟩ : [] = i ∧ [] = a := by simpa [evaluateAll] using hs
    exact ht
  | cons tree s ih =>
    obtain ⟨item, first, items, more, htree, hrest, rfl, rfl⟩ := evaluateAll_cons_eq_ok_iff.mp hs
    exact evaluateAll_cons_eq_ok_iff.mpr
      ⟨item, first, _, _, htree, ih hrest, rfl, List.append_assoc ..⟩

theorem evaluateAll_symbols (limit : DigitLimit) (p : Nat) (w : List Char) :
    evaluateAll limit (symbols p w) = ⟨.ok (w.map fun x => .symbol [x]), []⟩ := by
  induction w generalizing p with
  | nil => rfl
  | cons x w ih => simp [symbols, evaluateAll, evaluate, ih]

/-- **A place comes to its value**, and to nothing where nothing is written. -/
theorem exists_evaluateAll_place (R : Rule) (p : Nat) {w : List Char} {v : Int}
    (hR : w ≠ [] → ∃ steps, ∀ limit,
      R.act limit (w.map fun x => .symbol [x]) = ⟨.ok (.number v), steps⟩)
    (hnil : w = [] → v = 0) :
    ∃ items steps, (∀ limit, evaluateAll limit (place R p w) = ⟨.ok items, steps⟩) ∧
      Item.total items = v := by
  rw [place]
  split
  · next h => exact ⟨[], [], fun _ => rfl, (hnil h).symm⟩
  · next h =>
    obtain ⟨steps, hsteps⟩ := hR h
    refine ⟨[.number v], steps, fun limit => ?_, by simp [Item.total]⟩
    simp [evaluateAll, evaluate, evaluateAll_symbols, hsteps]

end Tree

theorem Item.total_append (s t : List Item) : total (s ++ t) = total s + total t := by
  induction s with
  | nil => simp [total]
  | cons i s ih => cases i <;> simp [total, ih, add_assoc]

theorem Item.flatMap_spelling_symbols (w : List Char) :
    (w.map fun x => Item.symbol [x]).flatMap spelling = w := by
  induction w with
  | nil => rfl
  | cons x w ih => simp [spelling, ih]

namespace Numeral.Digits

theorem exists_evaluateAll_digit {place : Place} {low mid top : Char}
    (h : place.Distinct low mid top) (hbase : place.base.natAbs ≤ 100) (R : Rule)
    (hact : ∀ limit items, R.act limit items =
      Rule.act.valued limit R place (items.flatMap Item.spelling)) (p : Nat) {d : Nat}
    (hd : d ≤ 9) : ∃ items steps,
      (∀ limit, Tree.evaluateAll limit (Tree.place R p (place.digit d)) = ⟨.ok items, steps⟩) ∧
        Item.total items = d * place.base := by
  refine Tree.exists_evaluateAll_place R p (fun hne => ?_) fun hnil => by
    simp [Place.eq_zero_of_digit_eq_nil h hd hnil]
  have h₁ : 1 ≤ d := Nat.one_le_iff_ne_zero.mpr fun h => hne (h ▸ rfl)
  refine ⟨[.place R (place.digit d) (d * place.base)], fun limit => ?_⟩
  -- the value of a place has three digits at most, so that every limit lets it be noted
  have hsmall : (d * place.base).natAbs < 10000 := by
    rw [Int.natAbs_mul, Int.natAbs_natCast]
    calc d * place.base.natAbs ≤ 9 * 100 := Nat.mul_le_mul hd hbase
      _ < 10000 := by decide
  have hnote : Step.Writable limit (.place R (place.digit d) (d * place.base)) :=
    limit.allows_of_natAbs_lt hsmall
  rw [hact, Item.flatMap_spelling_symbols, Rule.act.valued, Place.value_digit h h₁ hd]
  simp [Run.note_of_writable hnote]

/-- **The value of a numeral** is the number that its digits stand for, under every limit. -/
theorem exists_evaluate_tree (d : Digits) (p : Nat) :
    ∃ steps, ∀ limit, (d.tree p).evaluate limit = ⟨.ok (.number d.value), steps⟩ := by
  obtain ⟨i₁, s₁, h₁, t₁⟩ := Tree.exists_evaluateAll_place .thousands p
    (w := List.replicate d.thousands 'M') (v := d.thousands * 1000)
    (fun _ => ⟨[], fun _ => by
      simp only [Rule.act, Item.flatMap_spelling_symbols, List.length_replicate, Run.pure_eq]⟩)
    (fun h => by simpa using h)
  obtain ⟨i₂, s₂, h₂, t₂⟩ := exists_evaluateAll_digit Place.distinct_hundreds (by decide)
    .hundreds (fun _ _ => rfl) (p + d.thousands) d.hundreds_le
  obtain ⟨i₃, s₃, h₃, t₃⟩ := exists_evaluateAll_digit Place.distinct_tens (by decide)
    .tens (fun _ _ => rfl) (p + d.thousands + (Place.hundreds.digit d.hundreds).length) d.tens_le
  obtain ⟨i₄, s₄, h₄, t₄⟩ := exists_evaluateAll_digit Place.distinct_ones (by decide)
    .ones (fun _ _ => rfl) (p + d.thousands + (Place.hundreds.digit d.hundreds).length +
      (Place.tens.digit d.tens).length) d.ones_le
  have htotal : Item.total (i₁ ++ (i₂ ++ (i₃ ++ i₄))) = d.value := by
    simp only [Item.total_append, t₁, t₂, t₃, t₄, value, Place.hundreds, Place.tens, Place.ones]
    ring
  refine ⟨s₁ ++ (s₂ ++ (s₃ ++ s₄)), fun limit => ?_⟩
  have hall := Tree.evaluateAll_append (h₁ limit)
    (Tree.evaluateAll_append (h₂ limit) (Tree.evaluateAll_append (h₃ limit) (h₄ limit)))
  simp [tree, Tree.evaluate, places, hall, Rule.act, htotal]

end Numeral.Digits

/-! ### The spelling of a number -/

namespace Numeral

variable {a n : Nat} {w : List Char} {rest : List (Nat × List Char)}

theorem spellWith_of_lt (h : n < a) : spellWith ((a, w) :: rest) n = spellWith rest n := by
  simp [spellWith, Nat.div_eq_of_lt h, Nat.mod_eq_of_lt h]

/-- **A spelling is written one amount at a time**: as long as the first amount can be taken away,
it is, and its spelling comes first. -/
theorem spellWith_sub (ha : 0 < a) (h : a ≤ n) :
    spellWith ((a, w) :: rest) n = w ++ spellWith ((a, w) :: rest) (n - a) := by
  have hdiv : n / a = (n - a) / a + 1 := Nat.div_eq_sub_div ha h
  have hmod : n % a = (n - a) % a := Nat.mod_eq_sub_mod h
  rw [spellWith, spellWith, hdiv, hmod, List.replicate_succ, List.flatten_cons, List.append_assoc]

theorem spellWith_of_le (h : a ≤ n) (h' : n < 2 * a) :
    spellWith ((a, w) :: rest) n = w ++ spellWith rest (n - a) := by
  rw [spellWith_sub (by omega) h, spellWith_of_lt (by omega)]

theorem spellWith_replicate (k : Nat) (h : n < a) :
    spellWith ((a, w) :: rest) (k * a + n) = (List.replicate k w).flatten ++ spellWith rest n := by
  rw [spellWith, Nat.mul_comm, Nat.mul_add_div (by omega), Nat.div_eq_of_lt h, Nat.add_zero,
    Nat.mul_add_mod, Nat.mod_eq_of_lt h]

/-- The amounts that are spelled at a place, when its unit is a number. -/
def placeAmounts (place : Place) (unit : Nat) : List (Nat × List Char) :=
  [(9 * unit, place.low ++ place.top), (5 * unit, place.mid), (4 * unit, place.low ++ place.mid),
    (unit, place.low)]

theorem amounts_eq : amounts = (1000, ['M']) :: (placeAmounts Place.hundreds 100 ++
    (placeAmounts Place.tens 10 ++ placeAmounts Place.ones 1)) := by decide

/-- **The amounts of a place spell its digit.** -/
theorem spellWith_placeAmounts (place : Place) {unit d : Nat} (hd : d ≤ 9) (hn : n < unit) :
    spellWith (placeAmounts place unit ++ rest) (d * unit + n) =
      place.digit d ++ spellWith rest n := by
  simp only [placeAmounts, List.cons_append, List.nil_append]
  rcases Place.digit_cases hd with rfl | ⟨k, hk, rfl⟩ | rfl | hd
  · rw [spellWith_of_le (by omega) (by omega), Nat.add_sub_cancel_left, spellWith_of_lt (by omega),
      spellWith_of_lt (by omega), spellWith_of_lt hn, Place.digit]
  · have hle : k * unit ≤ 3 * unit := Nat.mul_le_mul_right unit hk
    have hsub : k * unit + 5 * unit + n - 5 * unit = k * unit + n := by omega
    rw [Nat.add_mul, spellWith_of_lt (by omega), spellWith_of_le (by omega) (by omega), hsub,
      spellWith_of_lt (by omega), spellWith_replicate k hn, (place.digit_eq_replicate hk).2,
      List.append_assoc]
  · rw [spellWith_of_lt (by omega), spellWith_of_lt (by omega),
      spellWith_of_le (by omega) (by omega), Nat.add_sub_cancel_left, spellWith_of_lt hn,
      Place.digit]
  · have hle : d * unit ≤ 3 * unit := Nat.mul_le_mul_right unit hd
    rw [spellWith_of_lt (by omega), spellWith_of_lt (by omega), spellWith_of_lt (by omega),
      spellWith_replicate d hn, (place.digit_eq_replicate hd).1]

/-- The decimal digits of a number. -/
def Digits.ofNat (n : Nat) (h : n ≤ 3999) : Digits where
  thousands := n / 1000
  hundreds := n / 100 % 10
  tens := n / 10 % 10
  ones := n % 10

/-- **The greedy spelling of a number is that of its decimal digits.** -/
theorem Digits.text_ofNat {n : Nat} (h : n ≤ 3999) : (Digits.ofNat n h).text = Numeral.ofNat n := by
  have hn : n =
      n / 1000 * 1000 + (n / 100 % 10 * 100 + (n / 10 % 10 * 10 + (n % 10 * 1 + 0))) := by
    omega
  conv_rhs => rw [Numeral.ofNat, amounts_eq, hn]
  rw [spellWith_replicate _ (by omega), spellWith_placeAmounts _ (by omega) (by omega),
    spellWith_placeAmounts _ (by omega) (by omega), ← List.append_nil (placeAmounts Place.ones 1),
    spellWith_placeAmounts _ (by omega) (by omega)]
  simp [Digits.text, Digits.ofNat, spellWith, List.flatten_replicate_singleton]

theorem Digits.value_ofNat {n : Nat} (h : n ≤ 3999) : (Digits.ofNat n h).value = n := by
  simp only [Digits.value, Digits.ofNat]
  omega

/-- **The greedy spelling of a number up to 3999 is a numeral** of this number. -/
theorem isNumeral_ofNat {n : Nat} (hpos : 1 ≤ n) (hle : n ≤ 3999) : IsNumeral (ofNat n) n := by
  have htext := Digits.text_ofNat hle
  have hvalue := Digits.value_ofNat hle
  refine isNumeral_iff.mpr ⟨Digits.ofNat n hle, htext, fun hnil => ?_, hvalue⟩
  have hzero := Digits.value_eq_zero_of_text_eq_nil (htext.trans hnil)
  omega

/-! ### Digits are determined by their number -/

namespace Digits

/-- **Two numerals of the same value have the same digits.** -/
theorem value_injective : Function.Injective value := by
  rintro ⟨m, h, t, o, _, _, _, _⟩ ⟨m', h', t', o', _, _, _, _⟩ he
  simp only [value] at he
  obtain ⟨rfl, rfl, rfl, rfl⟩ : m = m' ∧ h = h' ∧ t = t' ∧ o = o' := by omega
  rfl

theorem value_le (d : Digits) : d.value ≤ 3999 := by
  have h₁ := d.thousands_le
  have h₂ := d.hundreds_le
  have h₃ := d.tens_le
  have h₄ := d.ones_le
  rw [value]
  omega

/-- What is written with something is not zero. -/
theorem one_le_value {d : Digits} (h : d.text ≠ []) : 1 ≤ d.value := by
  have hnonneg := d.value_nonneg
  have hne : d.value ≠ 0 := by
    intro hzero
    have hd : d = ofNat 0 (by omega) := value_injective hzero
    exact h (congrArg text hd)
  omega

/-- **The digits of a numeral are the decimal digits of its value.** -/
theorem ofNat_value (d : Digits) (h : d.value.toNat ≤ 3999) : ofNat d.value.toNat h = d := by
  refine value_injective ?_
  rw [value_ofNat h, Int.toNat_of_nonneg d.value_nonneg]

end Digits

/-- **A numeral is the greedy spelling of its value**, which is one of 1 to 3999. -/
theorem isNumeral_iff_eq_ofNat {w : List Char} {v : Int} :
    IsNumeral w v ↔ 1 ≤ v ∧ v ≤ 3999 ∧ w = ofNat v.toNat := by
  constructor
  · intro h
    obtain ⟨d, rfl, hne, rfl⟩ := isNumeral_iff.mp h
    have hle := d.value_le
    refine ⟨Digits.one_le_value hne, hle, ?_⟩
    have htext := Digits.text_ofNat (n := d.value.toNat) (by omega)
    rwa [d.ofNat_value] at htext
  · rintro ⟨hpos, hle, rfl⟩
    have h := isNumeral_ofNat (n := v.toNat) (by omega) (by omega)
    rwa [Int.toNat_of_nonneg (by omega)] at h

end Numeral

/-- **A numeral has nothing but letters of numerals.** -/
theorem IsNumeral.mem_numeralLetters {w : List Char} {v : Int} (h : IsNumeral w v) {x : Char}
    (hx : x ∈ w) : x ∈ numeralLetters := by
  obtain ⟨d, rfl, -, -⟩ := Numeral.isNumeral_iff.mp h
  exact d.mem_numeralLetters hx

end RomanArithmetic
