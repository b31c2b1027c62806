import RomanArithmetic.Recognition.Failure

/-!
# Decimal places

A Roman numeral writes each decimal place below the thousands with three symbols: one for the unit
of the place, one for five units and one for ten. The nine digits are written
`low`, `low low`, `low low low`, `low mid`, `mid`, `mid low`, `mid low low`, `mid low low low` and
`low top`.

`RomanArithmetic.Place.form` recognizes these nine forms and `RomanArithmetic.Place.value` gives the
value of a form. The two are defined independently of each other, one by what may follow what and
one by looking at the whole text.
-/

namespace RomanArithmetic

/-- A decimal place: its unit, and the symbols for one, five and ten units. -/
structure Place where
  base : Int
  low : List Char
  mid : List Char
  top : List Char
deriving DecidableEq, Repr

namespace Place

/-- The place of the hundreds. -/
def hundreds : Place :=
  ⟨100, ['C'], ['D'], ['M']⟩

/-- The place of the tens. -/
def tens : Place :=
  ⟨10, ['X'], ['L'], ['C']⟩

/-- The place of the ones. -/
def ones : Place :=
  ⟨1, ['I'], ['V'], ['X']⟩

/-- The value of a text that fills the place. Nine and four are known by their texts; what begins
with the symbol for five counts five for it, and every other character counts one. -/
def value (place : Place) (text : List Char) : Int :=
  if text = place.low ++ place.top then 9 * place.base
  -- the symbol for five is one of the characters
  else if place.mid.isPrefixOf text then (text.length - 1 + 5) * place.base
  else if text = place.low ++ place.mid then 4 * place.base
  else text.length * place.base

open Recognizer in
/-- Finds a digit of the place. The first alternative that fits is taken, so nine and four come
before the units that they begin with. -/
def form (place : Place) : Recognizer :=
  ((symbol place.low).andThen (symbol place.top)).orElse <|
  ((symbol place.mid).andThen (upTo 3 (symbol place.low))).orElse <|
  ((symbol place.low).andThen (symbol place.mid)).orElse <|
  (symbol place.low).andThen (upTo 2 (symbol place.low))

/-- The value of a text that is a digit of the place. -/
def read (place : Place) (text : List Char) : Except ParseFailure Int :=
  (place.form.whole text).map fun _ => place.value text

example : tens.value ['X', 'C'] = 90 ∧ tens.value ['L', 'X'] = 60 ∧ tens.value ['X', 'L'] = 40 := by
  decide

end Place

end RomanArithmetic
