import RomanArithmetic.Text.Pattern

/-!
# Reading a pattern back

The pattern for a choice between words says which words these are, in which order, and nothing gets
lost: reading it gives the words back (`RomanArithmetic.Pattern.toWords?_ofWords`), so that no other
words have the same pattern (`RomanArithmetic.Pattern.toWords?_ofWords_and_inj`). The words may have
any characters, bars and backslashes among them, and they may be empty.

What has to be seen is that a bar between two words is never taken for a part of the first, even if
this ends with a backslash. Characters are read one at a time, with everything that they are written
with, and what is read behind them does not depend on them
(`RomanArithmetic.Pattern.toWords?_escape_append`). A backslash at the end of a word is written
behind another one, and the two are read together, so that the bar behind them stands alone.

Only the choice between no words at all has no pattern of its own. It is written like the choice of
the empty word alone.
-/

namespace RomanArithmetic.Pattern

variable {c : Char} {word rest : List Char} {words : List (List Char)}

/-! ### Reading a word -/

/-- Every metacharacter is written behind a backslash. -/
theorem metacharacters_subset_special : metacharacters ⊆ special := by
  decide

/-- A character that is written alone stands for itself. -/
theorem toWords?_cons_of_notMem_special (h : c ∉ special) (rest : List Char) :
    toWords? (c :: rest) = (toWords? rest).map (toWords?.consHead c) := by
  have hmeta : c ∉ metacharacters := fun hc => h (metacharacters_subset_special hc)
  have hbackslash : c ≠ '\x5c' := fun he => hmeta (he ▸ by decide)
  have hbar : c ≠ '|' := fun he => hmeta (he ▸ by decide)
  rw [toWords?, if_neg hmeta]
  · exact fun _ _ he => absurd he hbackslash
  · exact hbar

/-- **A character is read back as it was written**, whatever follows it. -/
theorem toWords?_escape_append (c : Char) (rest : List Char) :
    toWords? (escape c ++ rest) = (toWords? rest).map (toWords?.consHead c) := by
  by_cases h : c ∈ special
  · rw [escape, if_pos h]
    rfl
  · rw [escape, if_neg h, List.singleton_append, toWords?_cons_of_notMem_special h]

/-- **A word is read back in front of what follows it**, up to the next bar. -/
theorem toWords?_ofWord_append (h : toWords? rest = some (word :: words)) (w : List Char) :
    toWords? (ofWord w ++ rest) = some ((w ++ word) :: words) := by
  induction w with
  | nil => exact h
  | cons c w ih =>
    rw [ofWord, List.flatMap_cons, List.append_assoc, toWords?_escape_append, ← ofWord, ih]
    rfl

theorem toWords?_ofWord (w : List Char) : toWords? (ofWord w) = some [w] := by
  have hend : toWords? [] = some [[]] := rfl
  have hread := toWords?_ofWord_append hend w
  rwa [List.append_nil, List.append_nil] at hread

/-- **A bar ends the word in front of it.** -/
theorem toWords?_ofWord_append_bar (h : toWords? rest = some words) (w : List Char) :
    toWords? (ofWord w ++ '|' :: rest) = some (w :: words) := by
  have hbar : toWords? ('|' :: rest) = some ([] :: words) := by rw [toWords?, h, Option.map_some]
  rw [toWords?_ofWord_append hbar, List.append_nil]

/-! ### Reading a choice -/

theorem ofWords_singleton (w : List Char) : ofWords [w] = ofWord w := by
  rw [ofWords, List.map_singleton, List.intercalate_singleton]

theorem ofWords_cons_cons (v w : List Char) (words : List (List Char)) :
    ofWords (v :: w :: words) = ofWord v ++ '|' :: ofWords (w :: words) := by
  rw [ofWords, List.map_cons, List.map_cons, List.intercalate_cons_cons, List.append_assoc]
  rfl

/-- **The words of a choice are read back in their order.** -/
theorem toWords?_ofWords (h : words ≠ []) : toWords? (ofWords words) = some words := by
  induction words with
  | nil => exact absurd rfl h
  | cons w words ih =>
    cases words with
    | nil => rw [ofWords_singleton, toWords?_ofWord]
    | cons v words =>
      rw [ofWords_cons_cons, toWords?_ofWord_append_bar (ih (List.cons_ne_nil v words))]

/-- **A pattern loses no word**: the words of a choice are read back from it, all of them and in
their order, and any other choice has another pattern. -/
theorem toWords?_ofWords_and_inj (h : words ≠ []) :
    toWords? (ofWords words) = some words ∧
      ∀ others, others ≠ [] → (ofWords others = ofWords words ↔ others = words) := by
  refine ⟨toWords?_ofWords h, fun others hothers => ⟨fun he => ?_, congrArg ofWords⟩⟩
  have hread := toWords?_ofWords hothers
  rw [he, toWords?_ofWords h] at hread
  exact (Option.some.inj hread).symm

/-- Neither the backslash at the end of the first word nor the bar that is the second one is taken
for a sign of the pattern, and with a bar in the first word the pattern is another one. -/
theorem toWords?_ofWords_and_inj_backslash :
    let words := [['a', '\x5c'], ['|'], []]
    words ≠ [] ∧ ofWords words = ['a', '\x5c', '\x5c', '|', '\x5c', '|', '|'] ∧
      toWords? ['a', '\x5c', '\x5c', '|', '\x5c', '|', '|'] = some words ∧
      ofWords [['a', '\x5c', '|'], ['|'], []] ≠ ofWords words := by
  intro words
  have hwords : words ≠ [] := by decide
  have hpattern : ofWords words = ['a', '\x5c', '\x5c', '|', '\x5c', '|', '|'] := by decide
  obtain ⟨hread, hinj⟩ := toWords?_ofWords_and_inj hwords
  refine ⟨hwords, hpattern, hpattern ▸ hread, fun he => ?_⟩
  have hsame := (hinj [['a', '\x5c', '|'], ['|'], []] (by decide)).mp he
  exact absurd hsame (by decide)

example : ofWords [] = ofWords [[]] := rfl

end RomanArithmetic.Pattern
