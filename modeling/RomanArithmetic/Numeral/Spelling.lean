import RomanArithmetic.Numeral.Place

/-!
# Spelling numbers

How a number is written as a Roman numeral, independently of how numerals are recognized:
`RomanArithmetic.Numeral.ofNat` takes the greatest amounts away as long as it can. The other
direction, `RomanArithmetic.Numeral.letterSum`, reads a numeral letter by letter: a letter counts
what it is worth, and against the number if a letter of greater worth follows it.

`RomanArithmetic.Place.digit` spells a single decimal digit at a place, and
`RomanArithmetic.IsNumeral` puts the digits of the places together; it is the declarative account of
what a numeral is and what it is worth.
-/

namespace RomanArithmetic

namespace Numeral

/-! ### From numbers to numerals -/

/-- The amounts that have a spelling of their own, from the greatest to the least. -/
def amounts : List (Nat × List Char) :=
  [(1000, ['M']), (900, ['C', 'M']), (500, ['D']), (400, ['C', 'D']), (100, ['C']),
    (90, ['X', 'C']), (50, ['L']), (40, ['X', 'L']), (10, ['X']),
    (9, ['I', 'X']), (5, ['V']), (4, ['I', 'V']), (1, ['I'])]

/-- Spells a number by taking the first of the amounts away as often as possible, then the next,
and so on. -/
def spellWith : List (Nat × List Char) → Nat → List Char
  | [], _ => []
  | (amount, spelling) :: rest, n =>
    (List.replicate (n / amount) spelling).flatten ++ spellWith rest (n % amount)

/-- The Roman numeral for a number. It is the customary one for 1 to 3999; there is no numeral for
zero, and greater numbers would need more than three thousands in a row. -/
def ofNat (n : Nat) : List Char :=
  spellWith amounts n

example : ofNat 1994 = ['M', 'C', 'M', 'X', 'C', 'I', 'V'] := by decide

/-! ### From letters to numbers -/

/-- What a letter is worth. -/
def letterWorth : Char → Int
  | 'M' => 1000
  | 'D' => 500
  | 'C' => 100
  | 'L' => 50
  | 'X' => 10
  | 'V' => 5
  | 'I' => 1
  | _ => 0

/-- The worth of letters in a row: a letter before one of greater worth is taken away, any other is
added. -/
def letterSum : List Char → Int
  | [] => 0
  | [c] => letterWorth c
  | c :: d :: rest =>
    (if letterWorth c < letterWorth d then -letterWorth c else letterWorth c) +
      letterSum (d :: rest)

example : letterSum ['M', 'C', 'M', 'X', 'C', 'I', 'V'] = 1994 := by decide

end Numeral

/-! ### From digits to numerals -/

/-- The spelling of a decimal digit at a place. Nothing is written for zero, nor for what is no
digit. -/
def Place.digit (place : Place) : Nat → List Char
  | 1 => place.low
  | 2 => place.low ++ place.low
  | 3 => place.low ++ place.low ++ place.low
  | 4 => place.low ++ place.mid
  | 5 => place.mid
  | 6 => place.mid ++ place.low
  | 7 => place.mid ++ place.low ++ place.low
  | 8 => place.mid ++ place.low ++ place.low ++ place.low
  | 9 => place.low ++ place.top
  | _ => []

/-- A text is a numeral of some value when it spells the value's thousands, hundreds, tens and ones
one after the other, at most three thousands, and is not empty. -/
def IsNumeral (text : List Char) (value : Int) : Prop :=
  ∃ thousands hundreds tens ones : Nat,
    thousands ≤ 3 ∧ hundreds ≤ 9 ∧ tens ≤ 9 ∧ ones ≤ 9 ∧
    text = List.replicate thousands 'M' ++ Place.hundreds.digit hundreds ++
      Place.tens.digit tens ++ Place.ones.digit ones ∧
    text ≠ [] ∧
    value = 1000 * thousands + 100 * hundreds + 10 * tens + ones

end RomanArithmetic
