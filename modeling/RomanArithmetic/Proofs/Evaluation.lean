import RomanArithmetic.Proofs.Parsing
import RomanArithmetic.Calculator

/-!
# The value of a text

Reading a text and evaluating the parse tree gives exactly the values of the derivations of the text
(`RomanArithmetic.evaluateText_eq_ok_iff_derives`). On the way from a text to its value nothing is
left to choose: every text has at most one parse tree, since the parser finds every tree there is,
and so two derivations of one text have the same value.

Under a limit on written numbers an accepted text has this value if it fits the limit, and otherwise
a number is too long (`RomanArithmetic.ComesTo`). Whether it fits is a question about the one
expression that it writes (`RomanArithmetic.Writes.fits_iff`), and not one about its value: a sum
can be short although what is added up on the way to it is too long.
-/

namespace RomanArithmetic

variable {limit : DigitLimit} {text : List Char} {tree : Tree} {e f : Expr} {v : Int}

/-! ### From texts to expressions and back -/

/-- **A parse tree means an expression**, and the text writes it. -/
theorem exists_means_of_parse_eq_ok (h : parse text = .ok tree) :
    ∃ e, tree.Means e ∧ Writes .expression text e := by
  obtain ⟨t, ht, rfl, rfl⟩ := parse_eq_ok_iff.mp h
  obtain ⟨e, he, -, hr⟩ := ht.exists_means
  exact ⟨e, he.calculation, writes_iff_renders.mpr hr⟩

namespace Writes

/-- **A text that writes an expression is read as this expression.** -/
theorem exists_parse_eq_ok (h : Writes .expression text e) :
    ∃ tree, parse text = .ok tree ∧ tree.Means e := by
  obtain ⟨t, ht, rfl, he⟩ := h 0
  exact ⟨_, parse_eq_ok_iff.mpr ⟨t, ht, rfl, rfl⟩, he.calculation⟩

/-- **A text writes one expression.** -/
theorem unique (h : Writes .expression text e) (h' : Writes .expression text f) : e = f := by
  obtain ⟨tree, hparse, he⟩ := h.exists_parse_eq_ok
  obtain ⟨tree', hparse', hf⟩ := h'.exists_parse_eq_ok
  obtain rfl : tree = tree' := Except.ok.inj (hparse.symm.trans hparse')
  exact Option.some.inj (he.expr_eq.symm.trans hf.expr_eq)

/-- **A text fits a limit if its expression does.** -/
theorem fits_iff (h : Writes .expression text e) : Fits limit text ↔ e.Fits limit := by
  constructor
  · exact fun hfits => hfits e h.renders
  · intro hfits f hf
    obtain rfl : e = f := h.unique (writes_iff_renders.mpr hf)
    exact hfits

end Writes

/-! ### What is computed -/

theorem evaluateText_of_parse_eq_ok {outcome : Except Fault Int} {steps : List Step}
    (h : parse text = .ok tree) (hv : tree.value limit = ⟨outcome, steps⟩) :
    evaluateText limit text = outcome.mapError .faulty := by
  unfold evaluateText
  rw [h]
  simp only [hv]

theorem evaluateText_of_parse_eq_error {failure : ParseFailure} (h : parse text = .error failure) :
    evaluateText limit text = .error (.unreadable failure) := by
  unfold evaluateText
  rw [h]

theorem evaluateText_eq_ok_iff : evaluateText limit text = .ok v ↔
    ∃ tree steps, parse text = .ok tree ∧ tree.value limit = ⟨.ok v, steps⟩ := by
  cases hparse : parse text with
  | error failure => simp [evaluateText_of_parse_eq_error hparse]
  | ok tree =>
    rcases hvalue : tree.value limit with ⟨fault | w, steps⟩
    · have herror : evaluateText limit text = .error (.faulty fault) :=
        evaluateText_of_parse_eq_ok hparse hvalue
      simp [herror, hvalue]
    · have hok : evaluateText limit text = .ok w := evaluateText_of_parse_eq_ok hparse hvalue
      simp [hok, hvalue]

namespace Writes

/-- **The value of a text is that of its expression**, if this fits. -/
theorem evaluateText_eq (h : Writes .expression text e) (hfits : e.Fits limit) :
    evaluateText limit text = .ok e.value := by
  obtain ⟨tree, hparse, he⟩ := h.exists_parse_eq_ok
  obtain ⟨steps, hv⟩ := he.exists_value_eq hfits
  exact evaluateText_of_parse_eq_ok hparse hv

/-- **If the expression does not fit**, a number is too long. -/
theorem evaluateText_eq_error (h : Writes .expression text e) (hfits : ¬e.Fits limit) :
    evaluateText limit text = .error (.faulty (.tooLong limit.digits)) := by
  obtain ⟨tree, hparse, he⟩ := h.exists_parse_eq_ok
  obtain ⟨steps, hv⟩ := he.exists_value_eq_error hfits
  exact evaluateText_of_parse_eq_ok hparse hv

theorem evaluateText_eq_ok_iff (h : Writes .expression text e) :
    evaluateText limit text = .ok v ↔ e.Fits limit ∧ e.value = v := by
  by_cases hfits : e.Fits limit
  · simp [h.evaluateText_eq hfits, hfits]
  · simp [h.evaluateText_eq_error hfits, hfits]

/-- **Texts that write the same expression** have the same value under every limit, or the same
fault. -/
theorem evaluateText_congr {text' : List Char} (h : Writes .expression text e)
    (h' : Writes .expression text' e) (limit : DigitLimit) :
    evaluateText limit text = evaluateText limit text' := by
  by_cases hfits : e.Fits limit
  · rw [h.evaluateText_eq hfits, h'.evaluateText_eq hfits]
  · rw [h.evaluateText_eq_error hfits, h'.evaluateText_eq_error hfits]

theorem accepted (h : Writes .expression text e) : Accepted text := by
  obtain ⟨tree, hparse, -⟩ := h.exists_parse_eq_ok
  exact ⟨tree, hparse⟩

end Writes

theorem Accepted.exists_writes (h : Accepted text) : ∃ e, Writes .expression text e := by
  obtain ⟨tree, htree⟩ := h
  obtain ⟨e, -, hwrites⟩ := exists_means_of_parse_eq_ok htree
  exact ⟨e, hwrites⟩

/-! ### Values and derivations -/

namespace Derives

/-- Every derivable value is computed, if the text fits. -/
theorem evaluateText_eq (h : Derives .expression text v) (hfits : Fits limit text) :
    evaluateText limit text = .ok v := by
  obtain ⟨e, he, rfl⟩ := h.exists_writes
  exact he.evaluateText_eq (he.fits_iff.mp hfits)

theorem evaluateText_eq_error (h : Derives .expression text v) (hfits : ¬Fits limit text) :
    evaluateText limit text = .error (.faulty (.tooLong limit.digits)) := by
  obtain ⟨e, he, rfl⟩ := h.exists_writes
  exact he.evaluateText_eq_error (mt he.fits_iff.mpr hfits)

theorem accepted (h : Derives .expression text v) : Accepted text := by
  obtain ⟨e, he, -⟩ := h.exists_writes
  exact he.accepted

end Derives

theorem Accepted.exists_derives (h : Accepted text) : ∃ v, Derives .expression text v := by
  obtain ⟨e, he⟩ := h.exists_writes
  exact ⟨e.value, he.derives⟩

/-- **Only derivable values are computed**, and only if the text fits. -/
theorem derives_of_evaluateText_eq_ok (h : evaluateText limit text = .ok v) :
    Derives .expression text v ∧ Fits limit text := by
  obtain ⟨tree, -, hparse, -⟩ := evaluateText_eq_ok_iff.mp h
  obtain ⟨e, he⟩ := Accepted.exists_writes ⟨tree, hparse⟩
  obtain ⟨hfits, rfl⟩ := he.evaluateText_eq_ok_iff.mp h
  exact ⟨he.derives, he.fits_iff.mpr hfits⟩

/-- All derivations of a text have the same value. -/
theorem Derives.unique {w : Int} (h : Derives .expression text v)
    (h' : Derives .expression text w) : v = w :=
  Except.ok.inj ((h.evaluateText_eq (fits_unlimited text)).symm.trans
    (h'.evaluateText_eq (fits_unlimited text)))

/-! ### What a text comes to -/

/-- **A text comes to a value**: this is what the calculator answers for the text under every limit
on written numbers that the text fits, and there is always one, to have none. Under any other limit
it answers that a number is too long. -/
structure ComesTo (text : List Char) (v : Int) : Prop where
  eq_ok : ∀ limit, Fits limit text → evaluateText limit text = .ok v
  eq_error : ∀ limit, ¬Fits limit text →
    evaluateText limit text = .error (.faulty (.tooLong limit.digits))

theorem comesTo_iff_derives : ComesTo text v ↔ Derives .expression text v :=
  ⟨fun h => (derives_of_evaluateText_eq_ok (h.eq_ok _ (fits_unlimited text))).1,
    fun h => ⟨fun _ => h.evaluateText_eq, fun _ => h.evaluateText_eq_error⟩⟩

namespace ComesTo

theorem derives (h : ComesTo text v) : Derives .expression text v :=
  comesTo_iff_derives.mp h

/-- **What is answered under some limit** is what the text comes to. -/
theorem of_evaluateText_eq_ok (h : evaluateText limit text = .ok v) : ComesTo text v :=
  comesTo_iff_derives.mpr (derives_of_evaluateText_eq_ok h).1

/-- A text comes to one value. -/
theorem unique {w : Int} (h : ComesTo text v) (h' : ComesTo text w) : v = w :=
  h.derives.unique h'.derives

end ComesTo

theorem Writes.comesTo (h : Writes .expression text e) : ComesTo text e.value :=
  comesTo_iff_derives.mpr h.derives

theorem Derives.comesTo (h : Derives .expression text v) : ComesTo text v :=
  comesTo_iff_derives.mpr h

/-- Where there is no limit, what is answered is what the text comes to, and nothing else. -/
theorem comesTo_iff_unlimited : ComesTo text v ↔ evaluateText .unlimited text = .ok v :=
  ⟨fun h => h.eq_ok _ (fits_unlimited text), ComesTo.of_evaluateText_eq_ok⟩

/-- **The accepted texts** are those that come to something. -/
theorem accepted_iff_exists_comesTo : Accepted text ↔ ∃ v, ComesTo text v := by
  simp only [comesTo_iff_derives]
  exact ⟨Accepted.exists_derives, fun ⟨v, h⟩ => h.accepted⟩

/-- **The calculator computes the grammar.** What it answers for a text is the value of the
derivations of the text, it accepts the texts that have a derivation and no others, and all
derivations of a text have the same value. Under a limit on written numbers the value is answered if
the text fits the limit, and otherwise that a number is too long. -/
theorem evaluateText_eq_ok_iff_derives (text : List Char) :
    (∀ v, evaluateText .unlimited text = .ok v ↔ Derives .expression text v) ∧
      (∀ limit v, evaluateText limit text = .ok v ↔
        Derives .expression text v ∧ Fits limit text) ∧
      (∀ limit v, Derives .expression text v → ¬Fits limit text →
        evaluateText limit text = .error (.faulty (.tooLong limit.digits))) ∧
      (Accepted text ↔ ∃ v, Derives .expression text v) ∧
      {v | Derives .expression text v}.Subsingleton := by
  refine ⟨fun v => ⟨fun h => (derives_of_evaluateText_eq_ok h).1, fun h => ?_⟩,
    fun limit v => ⟨derives_of_evaluateText_eq_ok, fun ⟨h, hfits⟩ => h.evaluateText_eq hfits⟩,
    fun limit v => Derives.evaluateText_eq_error,
    ⟨Accepted.exists_derives, fun ⟨v, h⟩ => h.accepted⟩, fun v hv w hw => hv.unique hw⟩
  exact h.evaluateText_eq (fits_unlimited text)

end RomanArithmetic
