import RomanArithmetic.Proofs.OneToOne

/-!
# The longest numeral

Wherever a numeral is looked for in a text, the longest one that stands there is found
(`RomanArithmetic.numeral_found_cases`). That it is the longest is not a matter of course: the
places are read one after the other, each takes the first form that fits, and nothing is ever given
back to try something longer. What is shown here is that no number has a spelling that goes on
behind what was read.

The only way to find nothing is that no letter of a numeral stands at the place. Every letter is a
numeral by itself, so where there is one there is also something to find.
-/

namespace RomanArithmetic

open RomanArithmetic.Tree (textAll)

/-- **The longest numeral at the beginning of a text**, and its number. -/
structure Numeral.Longest (rest w : List Char) (n : Nat) : Prop where
  one_le : 1 ≤ n
  le : n ≤ 3999
  eq_ofNat : w = ofNat n
  ne_nil : w ≠ []
  isPrefix : w <+: rest
  longest : ∀ m, 1 ≤ m → m ≤ 3999 → ofNat m <+: rest → (ofNat m).length ≤ w.length

namespace Recognizer

variable {c c' : Cursor} {ts : List Tree}

/-- **No numeral is found where no letter stands**, and only there. -/
theorem numeral_eq_none_iff :
    (Grammar.numeral c).found = none ↔ ∀ x ∈ c.rest.head?, x ∉ numeralLetters := by
  have hr := reads_numeral c
  constructor
  · intro hnone x hx hletter
    obtain ⟨d, hd⟩ := Numeral.exists_text_eq_singleton hletter
    obtain ⟨rest, hrest⟩ := List.head?_eq_some_iff.mp hx
    have hpre : textAll [d.tree c.position] <+: c.rest := ⟨rest, by simp [hd, hrest]⟩
    obtain ⟨_, _, hf, -⟩ := hr.longest ⟨d, by simp [hd], rfl⟩ hpre
    exact absurd (hnone.symm.trans hf) (by simp)
  · intro hno
    cases hf : (Grammar.numeral c).found with
    | none => rfl
    | some found =>
      obtain ⟨⟨d, hne, hts⟩, hrest, -⟩ := hr.found hf
      obtain ⟨x, w, hw⟩ := List.exists_cons_of_ne_nil hne
      have hx : x ∈ c.rest.head? := by simp [hrest, hts, hw]
      exact absurd (d.mem_numeralLetters (hw ▸ List.mem_cons_self)) (hno x hx)

/-- Every numeral that the text begins with is one that the grammar looks for. -/
theorem exists_phrases_of_isNumeral {w : List Char} {v : Int} (h : IsNumeral w v) (p : Nat) :
    ∃ ss, Numeral.phrases p ss ∧ textAll ss = w := by
  obtain ⟨d, rfl, hne, -⟩ := Numeral.isNumeral_iff.mp h
  exact ⟨_, ⟨d, hne, rfl⟩, by simp⟩

/-- **What is found is the longest numeral**, as a single node that comes to its number. -/
theorem exists_longest_of_numeral_found (hf : (Grammar.numeral c).found = some (ts, c')) :
    ∃ n w places steps, Numeral.Longest c.rest w n ∧
      ts = [.node .numeral c.position (c.position + w.length) places] ∧ textAll places = w ∧
      c' = ⟨c.position + w.length, c.rest.drop w.length⟩ ∧
      ∀ limit, (Tree.node .numeral c.position (c.position + w.length) places).value limit =
        ⟨.ok n, steps⟩ := by
  have hr := reads_numeral c
  obtain ⟨⟨d, hne, rfl⟩, hrest, hpos⟩ := hr.found hf
  have htext : textAll [d.tree c.position] = d.text := by simp
  rw [htext] at hrest hpos
  have hnumeral : IsNumeral d.text d.value := Numeral.isNumeral_iff.mpr ⟨d, rfl, hne, rfl⟩
  obtain ⟨hone, hle, heq⟩ := Numeral.isNumeral_iff_eq_ofNat.mp hnumeral
  have hlongest : ∀ m, 1 ≤ m → m ≤ 3999 → Numeral.ofNat m <+: c.rest →
      (Numeral.ofNat m).length ≤ d.text.length := by
    intro m hm hm' hpre
    obtain ⟨ss, hss, hs⟩ := exists_phrases_of_isNumeral (Numeral.isNumeral_ofNat hm hm') c.position
    have hbegins := hr.prefix_of_phrase hf hss (hs ▸ hpre)
    rw [hs, htext] at hbegins
    exact hbegins.length_le
  obtain ⟨steps, hsteps⟩ := d.exists_evaluate_tree c.position
  refine ⟨d.value.toNat, d.text, d.places c.position, steps,
    ⟨by omega, by omega, heq, hne, ⟨c'.rest, hrest.symm⟩, hlongest⟩, rfl, d.textAll_places _,
    ?_, ?_⟩
  · rw [hrest, List.drop_left, ← hpos]
  · rw [← Numeral.Digits.tree, Int.toNat_of_nonneg d.value_nonneg]
    exact fun limit => Tree.value_eq_ok_iff.mpr (hsteps limit)

end Recognizer

/-- **A numeral is a longest match.** At any position of a text a numeral is looked for in vain
exactly if no letter stands there, and then whatever is tried next starts at the same position.
Otherwise one node is found. Its text is not empty and spells a number from 1 to 3999, no longer
beginning of what stands there spells one, and the node comes to this number, whatever the limit on
written numbers. -/
theorem numeral_found_cases (text : List Char) (i : Nat) :
    let c : Cursor := ⟨i, text.drop i⟩
    ((Grammar.numeral c).found = none ↔ ∀ x ∈ text[i]?, x ∉ numeralLetters) ∧
    ((Grammar.numeral c).found = none →
      ∀ r : Recognizer, (Grammar.numeral.orElse r c).found = (r c).found) ∧
    ((∃ x ∈ text[i]?, x ∈ numeralLetters) → ∃ n w places steps,
      Numeral.Longest (text.drop i) w n ∧
      (Grammar.numeral c).found = some ([.node .numeral i (i + w.length) places],
        ⟨i + w.length, text.drop (i + w.length)⟩) ∧
      (Tree.node .numeral i (i + w.length) places).text = w ∧
      ∀ limit, (Tree.node .numeral i (i + w.length) places).value limit = ⟨.ok n, steps⟩) := by
  intro c
  have hhead : c.rest.head? = text[i]? := List.head?_drop
  have hnone := Recognizer.numeral_eq_none_iff (c := c)
  rw [hhead] at hnone
  refine ⟨hnone, fun hf r => by rw [Recognizer.orElse_of_none hf], ?_⟩
  rintro ⟨x, hx, hletter⟩
  cases hf : (Grammar.numeral c).found with
  | none => exact absurd hletter (hnone.mp hf x hx)
  | some found =>
    obtain ⟨ts, c'⟩ := found
    obtain ⟨n, w, places, steps, hlongest, rfl, htext, rfl, hvalue⟩ :=
      Recognizer.exists_longest_of_numeral_found hf
    have hrest : c.rest.drop w.length = text.drop (i + w.length) := List.drop_drop
    exact ⟨n, w, places, steps, hlongest, by rw [hrest], htext, hvalue⟩

/-- Behind the nine of *MIXI* there is a one that belongs to no numeral with it, and behind it there
is nothing. -/
theorem numeral_found_cases_nine :
    let text := ['M', 'I', 'X', 'I']
    (∃ x ∈ text[1]?, x ∈ numeralLetters) ∧ (∃ n w places steps,
      Numeral.Longest ['I', 'X', 'I'] w n ∧
      (Grammar.numeral ⟨1, ['I', 'X', 'I']⟩).found =
        some ([.node .numeral 1 (1 + w.length) places], ⟨1 + w.length, text.drop (1 + w.length)⟩) ∧
      (Tree.node .numeral 1 (1 + w.length) places).text = w ∧
      ∀ limit, (Tree.node .numeral 1 (1 + w.length) places).value limit = ⟨.ok n, steps⟩) ∧
    (Grammar.numeral ⟨4, []⟩).found = none := by
  intro text
  have hletter : ∃ x ∈ text[1]?, x ∈ numeralLetters := ⟨'I', rfl, by decide⟩
  exact ⟨hletter, (numeral_found_cases text 1).2.2 hletter,
    (numeral_found_cases text 4).1.mpr (by simp [text])⟩

end RomanArithmetic
