import RomanArithmetic.Proofs.Parsing
import Mathlib.Data.List.Sort

/-!
# Which leaves are tried

What is expected where a text fails is known so far as a set of characters: the leaves that are
recorded there match exactly the characters that can come next. Two leaves may match the same
character, though, as a letter does by itself and as any letter. To say which leaves are recorded we
need to know which leaves there are: `RomanArithmetic.Recognizer.Tries` bounds the leaves that a
recognizer tries, whatever the text is, and the grammar tries those that
`RomanArithmetic.Leaf.InGrammar` lists.

A character that is no letter of a numeral is matched by one of these leaves only,
`RomanArithmetic.Leaf.ofSign`. So where no letter can come next, the recorded leaves are known from
the characters (`RomanArithmetic.ParseFailure.Explains.mem_leaves_iff`), and with them the list of
expectations.
-/

namespace RomanArithmetic

open RomanArithmetic.Tree (textAll)

/-! ### The leaves that a recognizer tries -/

namespace Recognizer

/-- **A recognizer tries leaves of a set only**: no other leaf is in its record of failures. -/
def Tries (r : Recognizer) (L : Set Leaf) : Prop :=
  ∀ c, ∀ l ∈ (r c).furthest.leaves, l ∈ L

variable {r q : Recognizer} {L : Set Leaf} {l : Leaf} {c : Cursor}

theorem tries_empty : empty.Tries L := fun _ _ hl => absurd hl List.not_mem_nil

theorem tries_never : never.Tries L := fun _ _ hl => absurd hl List.not_mem_nil

theorem tries_leaf (hl : l ∈ L) : (leaf l).Tries L := by
  intro c l' hl'
  rw [leaf] at hl'
  split at hl'
  · exact absurd hl' List.not_mem_nil
  · obtain rfl : l' = l := List.mem_singleton.mp hl'
    exact hl

theorem Tries.andThen (hr : r.Tries L) (hq : q.Tries L) : (r.andThen q).Tries L := by
  intro c l hl
  cases hf : (r c).found with
  | none =>
    rw [andThen_of_none hf] at hl
    exact hr c l hl
  | some found =>
    rw [andThen_of_some hf] at hl
    rcases Furthest.mem_leaves_merge hl with h | h
    · exact hr c l h
    · exact hq found.2 l h

theorem Tries.orElse (hr : r.Tries L) (hq : q.Tries L) : (r.orElse q).Tries L := by
  intro c l hl
  cases hf : (r c).found with
  | none =>
    rw [orElse_of_none hf] at hl
    rcases Furthest.mem_leaves_merge hl with h | h
    · exact hr c l h
    · exact hq c l h
  | some found =>
    rw [orElse_of_some hf] at hl
    exact hr c l hl

theorem Tries.optional (hr : r.Tries L) : (optional r).Tries L :=
  hr.orElse tries_empty

theorem Tries.ahead (hr : r.Tries L) : (ahead r).Tries L := hr

theorem Tries.rule (hr : r.Tries L) (R : Rule) : (rule R r).Tries L := hr

theorem Tries.upTo (hr : r.Tries L) (limit : Nat) : (upTo limit r).Tries L := by
  induction limit with
  | zero => exact tries_empty
  | succ limit ih => exact (hr.andThen ih).optional

theorem Tries.many (hr : r.Tries L) : r.many.Tries L := fun c =>
  hr.upTo (c.rest.length + 1) c

/-- Where a whole text is not read, the end of the text may have been tried too. -/
theorem Tries.of_whole_eq_error (hr : r.Tries L) (hend : .endOfText ∈ L) {text : List Char}
    {failure : ParseFailure} (h : r.whole text = .error failure) : ∀ l ∈ failure.leaves, l ∈ L := by
  have hboth := hr.andThen (tries_leaf hend) ⟨0, text⟩
  rw [whole] at h
  split at h
  · exact absurd h (by simp)
  · next hf =>
    obtain rfl := Except.error.inj h
    rwa [hf] at hboth

end Recognizer

/-! ### The leaves of the grammar -/

/-- The symbols of the grammar: the letters of the numerals, and the brackets. -/
def Grammar.symbols : List Char :=
  numeralLetters ++ ['(', ')']

/-- **The leaves of the grammar.** -/
inductive Leaf.InGrammar : Leaf → Prop
  /-- A letter of a numeral, or a bracket. -/
  | symbol {x : Char} : x ∈ Grammar.symbols → InGrammar (.symbol [x])
  /-- Any letter of a numeral. -/
  | letter : InGrammar .letter
  /-- An operator of a level. -/
  | operator (level : Level) : InGrammar (.operator level)
  /-- The end of the text. -/
  | endOfText : InGrammar .endOfText

namespace Recognizer

open Grammar

/-- The leaves that are tried belong to the grammar. -/
abbrev TriesGrammar (r : Recognizer) : Prop :=
  r.Tries {l | l.InGrammar}

theorem tries_symbol {x : Char} (hx : x ∈ Grammar.symbols) : (symbol [x]).TriesGrammar :=
  tries_leaf (.symbol hx)

theorem tries_form {place : Place} {low mid top : Char} (h : place.Distinct low mid top)
    (hl : low ∈ Grammar.symbols) (hm : mid ∈ Grammar.symbols) (ht : top ∈ Grammar.symbols) :
    place.form.TriesGrammar := by
  have hlow := tries_symbol hl
  have hmid := tries_symbol hm
  rw [Place.form, h.low_eq, h.mid_eq, h.top_eq]
  exact (hlow.andThen (tries_symbol ht)).orElse <| (hmid.andThen (hlow.upTo 3)).orElse <|
    (hlow.andThen hmid).orElse (hlow.andThen (hlow.upTo 2))

theorem tries_numeral : numeral.TriesGrammar := by
  have hM : thousands.TriesGrammar :=
    ((tries_symbol (by decide)).andThen ((tries_symbol (by decide)).upTo 2)).rule .thousands
  have hC : hundreds.TriesGrammar :=
    (tries_form Place.distinct_hundreds (by decide) (by decide) (by decide)).rule .hundreds
  have hX : tens.TriesGrammar :=
    (tries_form Place.distinct_tens (by decide) (by decide) (by decide)).rule .tens
  have hI : ones.TriesGrammar :=
    (tries_form Place.distinct_ones (by decide) (by decide) (by decide)).rule .ones
  exact Tries.rule ((tries_leaf .letter).ahead.andThen <| hM.optional.andThen <|
    hC.optional.andThen <| hX.optional.andThen hI.optional) .numeral

theorem Tries.chain {operand : Recognizer} (h : operand.TriesGrammar) (level : Level) :
    (chain level operand).TriesGrammar :=
  h.andThen ((tries_leaf (.operator level)).andThen h).many

theorem Tries.factor {inner : Recognizer} (h : inner.TriesGrammar) :
    (factor inner).TriesGrammar :=
  (tries_numeral.orElse <| (tries_symbol (by decide)).andThen <|
    h.andThen (tries_symbol (by decide))).rule .factor

/-- **The grammar tries its own leaves only**, at every depth. -/
theorem tries_expression (depth : Nat) : (expression depth).TriesGrammar := by
  induction depth with
  | zero => exact tries_never
  | succ depth ih => exact ((ih.factor.chain _).rule .term |>.chain _).rule .expression

end Recognizer

theorem inGrammar_of_parse_eq_error {text : List Char} {failure : ParseFailure}
    (h : parse text = .error failure) : ∀ l ∈ failure.leaves, l.InGrammar := by
  rw [parse] at h
  cases hw : (Grammar.expression (text.length + 1)).whole text with
  | ok ts => simp [hw, Except.map] at h
  | error failure' =>
    rw [hw, Except.map, Except.error.injEq] at h
    exact h ▸ (Recognizer.tries_expression _).of_whole_eq_error .endOfText hw

/-! ### The leaf of a sign -/

namespace Leaf

variable {l : Leaf} {x : Char}

/-- The leaf of the grammar that matches a character, if this is no letter of a numeral. -/
def ofSign (x : Char) : Leaf :=
  if x ∈ Level.additive.symbols then operator .additive
  else if x ∈ Level.multiplicative.symbols then operator .multiplicative
  else symbol [x]

/-- **Only a letter is matched by several leaves.** -/
theorem InGrammar.eq_ofSign (h : l.InGrammar) (hx : l.Matches x) (hno : x ∉ numeralLetters) :
    l = ofSign x := by
  cases h with
  | @symbol y hy =>
    obtain rfl := matches_symbol.mp hx
    rcases List.mem_append.mp hy with hletter | hbracket
    · exact absurd hletter hno
    · simp only [List.mem_cons, List.not_mem_nil, or_false] at hbracket
      rcases hbracket with rfl | rfl <;> rfl
  | letter => exact absurd (matches_letter.mp hx) hno
  | operator level =>
    have hx := matches_operator.mp hx
    cases level with
    | additive => rw [ofSign, if_pos hx]
    | multiplicative =>
      obtain rfl : x = '*' := by simpa [Level.symbols, Level.operators, Operator.symbol] using hx
      rfl
  | endOfText => exact absurd hx (not_matches_endOfText x)

end Leaf

/-! ### Expectations, leaf by leaf -/

namespace ParseFailure

variable {failure : ParseFailure} {S : Phrases} {l : Leaf}

/-- **Where no letter can come next, the recorded leaves are known**: they are those of the signs
that can come next, and the end of the text if it can. -/
theorem Explains.mem_leaves_iff (h : failure.Explains S)
    (hgrammar : ∀ l ∈ failure.leaves, l.InGrammar)
    (hno : ∀ x ∈ S.next 0 failure.before, x ∉ numeralLetters) :
    l ∈ failure.leaves ↔ (l = .endOfText ∧ ∃ ts, S 0 ts ∧ textAll ts = failure.before) ∨
      ∃ x ∈ S.next 0 failure.before, l = .ofSign x := by
  constructor
  · intro hl
    rcases h.leaf_cases l hl with rfl | ⟨x, hx⟩
    · exact Or.inl ⟨rfl, h.endOfText_iff.mp hl⟩
    · have hnext := (h.mem_next_iff x).mpr ⟨l, hl, hx⟩
      exact Or.inr ⟨x, hnext, (hgrammar l hl).eq_ofSign hx (hno x hnext)⟩
  · rintro (⟨rfl, hcomplete⟩ | ⟨x, hnext, rfl⟩)
    · exact h.endOfText_iff.mpr hcomplete
    · obtain ⟨l, hl, hx⟩ := (h.mem_next_iff x).mp hnext
      exact (hgrammar l hl).eq_ofSign hx (hno x hnext) ▸ hl

/-- The list of expectations does not depend on the order in which leaves were tried. -/
theorem expected_eq_of_mem_iff {leaves : List Leaf} (h : ∀ l, l ∈ failure.leaves ↔ l ∈ leaves) :
    failure.expected = sortedDistinct (leaves.map Leaf.description) := by
  refine (pairwise_sortedDistinct _).eq_of_mem_iff (pairwise_sortedDistinct _) fun s => ?_
  simp only [mem_sortedDistinct, List.mem_map, h]

end ParseFailure

end RomanArithmetic
