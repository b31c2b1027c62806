import RomanArithmetic.Proofs.Numerals
import RomanArithmetic.Proofs.WholeTexts

/-!
# The nine forms of a decimal place

The recognizer of a place and its value go their own ways. One tries four alternatives in a fixed
order, three of which begin with the same symbol; the other looks at the whole text, compares it
with two of the forms, and otherwise counts. They agree whatever the three symbols are, as long as
these are different characters, and whatever the unit is (`RomanArithmetic.Place.read_cases`): a
text is read as a digit if it is one of the nine forms, and its value is then the number of the form
in units of the place. A text that is none of them is read as far as one of the forms reaches.
-/

namespace RomanArithmetic.Place

variable {place : Place} {low mid top : Char} {text : List Char} {d i : Nat} {v : Int}

/-- **The nine forms** of a place with these symbols, from that of one to that of nine. -/
def forms (low mid top : Char) : List (List Char) :=
  [[low], [low, low], [low, low, low], [low, mid], [mid], [mid, low], [mid, low, low],
    [mid, low, low, low], [low, top]]

/-- The forms spell the digits, in their order. -/
theorem getElem?_forms_eq_some_iff (h : place.Distinct low mid top) :
    (forms low mid top)[i]? = some text ↔ i < 9 ∧ text = place.digit (i + 1) := by
  rcases Nat.lt_or_ge i 9 with hi | hi
  · interval_cases i <;> simp [forms, digit, h.low_eq, h.mid_eq, h.top_eq, eq_comm]
  · have hnone : (forms low mid top)[i]? = none := List.getElem?_eq_none hi
    simp [hnone, Nat.not_lt.mpr hi]

theorem mem_forms_iff (h : place.Distinct low mid top) :
    text ∈ forms low mid top ↔ text ∈ place.digits := by
  rw [List.mem_iff_getElem?]
  simp only [getElem?_forms_eq_some_iff h]
  constructor
  · rintro ⟨i, hi, rfl⟩
    exact ⟨i + 1, by omega, by omega, rfl⟩
  · rintro ⟨d, h₁, h₉, rfl⟩
    obtain ⟨i, rfl⟩ := Nat.exists_eq_add_of_le' h₁
    exact ⟨i, by omega, rfl⟩

/-! ### Reading a digit -/

/-- **A text is recognized exactly if it spells a digit.** -/
theorem exists_whole_eq_ok_iff (h : place.Distinct low mid top) :
    (∃ trees, place.form.whole text = .ok trees) ↔ text ∈ place.digits := by
  have hr := reads_form h ⟨0, text⟩
  constructor
  · rintro ⟨trees, hw⟩
    obtain ⟨_, ⟨w, hw, rfl⟩, htext, -⟩ := hr.whole_eq_ok.mp hw
    rw [Tree.textAll_symbols] at htext
    exact htext ▸ hw
  · intro hd
    exact ⟨_, hr.whole_eq_ok.mpr ⟨_, ⟨text, hd, rfl⟩, Tree.textAll_symbols 0 text, rfl⟩⟩

/-- **A digit is read as its number**, in units of the place. -/
theorem read_digit (h : place.Distinct low mid top) (h₁ : 1 ≤ d) (h₉ : d ≤ 9) :
    place.read (place.digit d) = .ok (d * place.base) := by
  obtain ⟨trees, hw⟩ := (exists_whole_eq_ok_iff h).mpr ⟨d, h₁, h₉, rfl⟩
  rw [read, hw, Except.map, value_digit h h₁ h₉]

theorem exists_digit_of_read_eq_ok (h : place.Distinct low mid top) (hv : place.read text = .ok v) :
    ∃ d, 1 ≤ d ∧ d ≤ 9 ∧ text = place.digit d ∧ v = d * place.base := by
  cases hw : place.form.whole text with
  | error failure => simp [read, hw, Except.map] at hv
  | ok trees =>
    obtain ⟨d, h₁, h₉, rfl⟩ := (exists_whole_eq_ok_iff h).mp ⟨trees, hw⟩
    exact ⟨d, h₁, h₉, rfl, Except.ok.inj (hv.symm.trans (read_digit h h₁ h₉))⟩

/-- **Different texts have different values**, unless the unit is zero. -/
theorem eq_of_read_eq_ok (h : place.Distinct low mid top) (hbase : place.base ≠ 0)
    {s t : List Char} (hs : place.read s = .ok v) (ht : place.read t = .ok v) : s = t := by
  obtain ⟨d, -, -, rfl, hd⟩ := exists_digit_of_read_eq_ok h hs
  obtain ⟨e, -, -, rfl, he⟩ := exists_digit_of_read_eq_ok h ht
  have hde : (d : Int) = e := mul_right_cancel₀ hbase (hd.symm.trans he)
  rw [Int.ofNat.inj hde]

/-! ### Where a text stops being a digit -/

/-- **A text that is no digit is read as far as a digit reaches.** -/
theorem longest_of_whole_eq_error (h : place.Distinct low mid top) {failure : ParseFailure}
    (hw : place.form.whole text = .error failure) :
    failure.position ≤ text.length ∧ (∃ w ∈ place.digits, text.take failure.position <+: w) ∧
      ∀ n, failure.position < n → n ≤ text.length → ∀ w ∈ place.digits, ¬text.take n <+: w := by
  obtain ⟨rfl, hexp⟩ := (reads_form h ⟨0, text⟩).explains_of_whole_eq_error hw
  obtain ⟨hbegins, hlongest⟩ := hexp.longest
  refine ⟨hexp.position_le, Phrases.begins_words.mp hbegins, fun n hn hlen w hd hpre => ?_⟩
  exact hlongest n hn hlen (Phrases.begins_words.mpr ⟨w, hd, hpre⟩)

/-- **Recognizer and value of a place agree**, for any three symbols and any unit. A text is read
exactly if it is one of the nine forms, and its value is then the number of the form in units of the
place, so that different texts have different values, unless the unit is zero. Any other text fails,
at the length of its longest beginning that is also the beginning of a form. -/
theorem read_cases (base : Int) (hlm : low ≠ mid) (hlt : low ≠ top) (hmt : mid ≠ top)
    (text : List Char) :
    let place : Place := ⟨base, [low], [mid], [top]⟩
    ((∃ trees, place.form.whole text = .ok trees) ↔ text ∈ forms low mid top) ∧
    (∀ i : Nat, (forms low mid top)[i]? = some text →
      place.value text = base * (i + 1) ∧ place.read text = .ok (base * (i + 1))) ∧
    (base ≠ 0 → ∀ other v, place.read text = .ok v → place.read other = .ok v → text = other) ∧
    (text ∉ forms low mid top → ∃ failure, place.form.whole text = .error failure ∧
      place.read text = .error failure ∧ failure.position ≤ text.length ∧
      (∃ w ∈ forms low mid top, text.take failure.position <+: w) ∧
      ∀ n, failure.position < n → n ≤ text.length →
        ∀ w ∈ forms low mid top, ¬text.take n <+: w) := by
  intro place
  have h : place.Distinct low mid top := ⟨rfl, rfl, rfl, hlm, hlt, hmt⟩
  simp only [mem_forms_iff h]
  have hok : (∃ trees, place.form.whole text = .ok trees) ↔ text ∈ place.digits :=
    exists_whole_eq_ok_iff h
  refine ⟨hok, fun i hi => ?_, fun hbase other v => eq_of_read_eq_ok h hbase, fun hno => ?_⟩
  · obtain ⟨hlt, rfl⟩ := (getElem?_forms_eq_some_iff h).mp hi
    have hbase : ((i + 1 : Nat) : Int) * place.base = base * (i + 1) := by
      rw [Int.mul_comm, Nat.cast_succ]
    rw [← hbase]
    exact ⟨value_digit h (by omega) (by omega), read_digit h (by omega) (by omega)⟩
  · cases hw : place.form.whole text with
    | ok trees => exact absurd (hok.mp ⟨trees, hw⟩) hno
    | error failure =>
      exact ⟨failure, rfl, by rw [read, hw, Except.map], longest_of_whole_eq_error h hw⟩

/-- With other symbols and another unit: the form of seven is read, and a text that goes on behind
the form of two fails behind it. -/
theorem read_cases_other_symbols :
    let place : Place := ⟨-7, ['a'], ['b'], ['c']⟩
    ('a' ≠ 'b' ∧ 'a' ≠ 'c' ∧ 'b' ≠ 'c') ∧ place.read ['b', 'a', 'a'] = .ok (-49) ∧
      ∃ failure, place.read ['a', 'a', 'b'] = .error failure ∧ failure.position = 2 := by
  intro place
  have hlm : 'a' ≠ 'b' := by decide
  have hlt : 'a' ≠ 'c' := by decide
  have hmt : 'b' ≠ 'c' := by decide
  obtain ⟨-, hread, -, -⟩ := read_cases (-7) hlm hlt hmt ['b', 'a', 'a']
  obtain ⟨-, -, -, hfails⟩ := read_cases (-7) hlm hlt hmt ['a', 'a', 'b']
  obtain ⟨failure, -, hfailure, hle, ⟨w, hw, hpre⟩, hlongest⟩ := hfails (by decide)
  refine ⟨⟨hlm, hlt, hmt⟩, (hread 6 rfl).2, failure, hfailure, ?_⟩
  have hge : ¬failure.position < 2 := fun hlt =>
    hlongest 2 hlt (by decide) ['a', 'a'] (by decide) (by decide)
  have hno : ∀ w ∈ forms 'a' 'b' 'c', ¬['a', 'a', 'b'] <+: w := by decide
  have hne : failure.position ≠ 3 := fun heq => hno w hw (by simpa [heq] using hpre)
  simp only [List.length_cons, List.length_nil] at hle
  omega

end RomanArithmetic.Place
