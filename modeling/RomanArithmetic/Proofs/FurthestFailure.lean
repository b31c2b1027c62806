import RomanArithmetic.Proofs.Parsing

/-!
# What a failure tells

A text that cannot be read gets an explanation, and the explanation is exact. Its position is the
length of the longest viable beginning of the text
(`RomanArithmetic.longest_viable_of_parse_eq_error`): nothing that was tried and given up went past
it, and no attempt that would have gone further was left out. Its list of expectations is the set of
the characters that can come next, and of the end of the text if the calculation may end there
(`RomanArithmetic.expected_of_parse_eq_error`).

The list is one of descriptions, in which the leaves themselves do not show. But the leaf can be
read off its description (`RomanArithmetic.Leaf.ofDescription_description`), so that nothing is
lost.
-/

namespace RomanArithmetic

/-! ### Descriptions of leaves -/

namespace Leaf

variable {l : Leaf} {x : Char} {s : String}

/-- The leaf of a calculation that is described by a text. -/
def ofDescription (s : String) : Leaf :=
  if s = "EOF" then endOfText
  else if s = "[MDCLXVI]" then letter
  else if s = "\x5c+|\x5c-" then operator .additive
  else if s = "\x5c*" then operator .multiplicative
  else symbol s.toList

theorem description_symbol (x : Char) : (symbol [x]).description = String.ofList [x] := by
  simp [description, label, pattern?, Label.description]

theorem ofDescription_singleton (x : Char) : ofDescription (String.ofList [x]) = symbol [x] := by
  have hne : ∀ s : String, s.length ≠ 1 → String.ofList [x] ≠ s := by
    rintro s hs rfl
    exact hs (by rw [String.length_ofList, List.length_singleton])
  rw [ofDescription, if_neg (hne _ (by decide)), if_neg (hne _ (by decide)),
    if_neg (hne _ (by decide)), if_neg (hne _ (by decide)), String.toList_ofList]

/-- **A leaf is known by its description**, if it is the end of the text or one character long. -/
theorem ofDescription_description (h : l = endOfText ∨ ∃ x, l.Matches x) :
    ofDescription l.description = l := by
  rcases h with rfl | ⟨x, hx⟩
  · decide
  · cases l with
    | symbol s =>
      obtain ⟨rest, -, he⟩ := Option.map_eq_some_iff.mp hx
      obtain ⟨rfl, -⟩ := Prod.mk.inj he
      rw [description_symbol, ofDescription_singleton]
    | letter => decide
    | operator level => cases level <;> decide
    | endOfText => exact absurd hx (not_matches_endOfText x)

end Leaf

/-! ### The list of expectations -/

namespace ParseFailure

variable {failure : ParseFailure} {S : Phrases} {l : Leaf}

theorem mem_expected {s : String} :
    s ∈ failure.expected ↔ ∃ l ∈ failure.leaves, l.description = s := by
  rw [expected, mem_sortedDistinct, List.mem_map]

/-- **What is expected is what failed**, although only descriptions are listed. -/
theorem Explains.description_mem_expected_iff (h : failure.Explains S)
    (hl : l = .endOfText ∨ ∃ x, l.Matches x) :
    l.description ∈ failure.expected ↔ l ∈ failure.leaves := by
  refine mem_expected.trans ⟨?_, fun h => ⟨l, h, rfl⟩⟩
  rintro ⟨l', hl', hd⟩
  have he := congrArg Leaf.ofDescription hd
  rw [Leaf.ofDescription_description (h.leaf_cases l' hl'), Leaf.ofDescription_description hl] at he
  exact he ▸ hl'

end ParseFailure

/-! ### The position and the expectations of a failed reading -/

variable {text : List Char} {failure : ParseFailure}

theorem before_of_parse_eq_error (h : parse text = .error failure) :
    failure.before = text.take failure.position := by
  rw [ParseFailure.before, (explains_of_parse_eq_error h).1]

/-- **The position of a failure is the length of the longest viable beginning.** Up to there the
text can be completed to a calculation, and no further. -/
theorem longest_viable_of_parse_eq_error (h : parse text = .error failure) :
    failure.position ≤ text.length ∧ Viable (text.take failure.position) ∧
      ∀ n, failure.position < n → n ≤ text.length → ¬Viable (text.take n) := by
  obtain ⟨rfl, hexp⟩ := explains_of_parse_eq_error h
  refine ⟨hexp.position_le, viable_iff.mpr hexp.reaches.begins, ?_⟩
  intro n hn hlen hviable
  -- a longer viable beginning would be out of reach
  have hpre := hexp.reaches.prefix_of_begins (viable_iff.mp hviable) (List.take_prefix n _)
  have hle := hpre.length_le
  rw [List.length_take, ParseFailure.before, List.length_take] at hle
  omega

/-- An operator is not viable behind another one. -/
theorem longest_viable_before_operator :
    parse ['V', '+', '*', 'I'] = .error ⟨['V', '+', '*', 'I'], 2, [.letter, .symbol ['(']]⟩ ∧
      2 ≤ 4 ∧ Viable ['V', '+'] ∧ ∀ n, 2 < n → n ≤ 4 → ¬Viable (['V', '+', '*', 'I'].take n) :=
  ⟨rfl, @longest_viable_of_parse_eq_error ['V', '+', '*', 'I'] ⟨_, 2, _⟩ rfl⟩

/-- **The expectations of a failure are the possible continuations.** They are listed in increasing
order, and there is at least one. A character can follow the part of the text that makes sense
exactly if it is matched by a leaf that is listed, the end of the text is listed exactly if this
part is a calculation already, and nothing else is listed. -/
theorem expected_of_parse_eq_error (h : parse text = .error failure) :
    failure.expected.Pairwise (· < ·) ∧
      (∀ c, Viable (text.take failure.position ++ [c]) ↔
        ∃ leaf : Leaf, leaf.description ∈ failure.expected ∧ leaf.Matches c) ∧
      ("EOF" ∈ failure.expected ↔ Accepted (text.take failure.position)) ∧
      (∀ s ∈ failure.expected, s = "EOF" ∨ ∃ (leaf : Leaf) (c : Char),
        leaf.description = s ∧ leaf.Matches c) ∧
      failure.expected ≠ [] := by
  have hbefore := before_of_parse_eq_error h
  obtain ⟨-, hexp⟩ := explains_of_parse_eq_error h
  refine ⟨pairwise_sortedDistinct _, ?_, ?_, ?_, ?_⟩
  · intro c
    rw [← hbefore, viable_iff]
    refine (hexp.mem_next_iff c).trans ⟨?_, ?_⟩
    · rintro ⟨l, hl, hc⟩
      exact ⟨l, (hexp.description_mem_expected_iff (Or.inr ⟨c, hc⟩)).mpr hl, hc⟩
    · rintro ⟨l, hl, hc⟩
      exact ⟨l, (hexp.description_mem_expected_iff (Or.inr ⟨c, hc⟩)).mp hl, hc⟩
  · rw [← hbefore, accepted_iff, ← hexp.endOfText_iff,
      ← hexp.description_mem_expected_iff (Or.inl rfl)]
    exact Iff.rfl
  · intro s hs
    obtain ⟨l, hl, rfl⟩ := ParseFailure.mem_expected.mp hs
    rcases hexp.leaf_cases l hl with rfl | ⟨x, hx⟩
    · exact Or.inl rfl
    · exact Or.inr ⟨l, x, rfl, hx⟩
  · obtain ⟨l, hl⟩ := List.exists_mem_of_ne_nil _ hexp.leaves_ne_nil
    exact List.ne_nil_of_mem (ParseFailure.mem_expected.mpr ⟨l, hl, rfl⟩)

/-- Behind a five there may be ones, operators and the end, but no bracket. -/
theorem expected_behind_five :
    let failure : ParseFailure := ⟨['V', ')'], 1,
      [.symbol ['I'], .operator .multiplicative, .operator .additive, .endOfText]⟩
    parse ['V', ')'] = .error failure ∧
      failure.expected = ["EOF", "I", "\x5c*", "\x5c+|\x5c-"] ∧ Accepted ['V'] ∧
      ∀ c, Viable ['V', c] ↔
        ∃ leaf : Leaf, leaf.description ∈ failure.expected ∧ leaf.Matches c := by
  intro failure
  have hexpected : failure.expected = ["EOF", "I", "\x5c*", "\x5c+|\x5c-"] := by decide
  obtain ⟨-, hnext, hend, -, -⟩ := @expected_of_parse_eq_error ['V', ')'] failure rfl
  exact ⟨rfl, hexpected, hend.mp (by rw [hexpected]; exact List.mem_cons_self), hnext⟩

end RomanArithmetic
