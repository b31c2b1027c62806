import RomanArithmetic.Numeral.Place

/-!
# The grammar of calculations

A calculation is an expression that fills the text. An expression adds and subtracts terms, a term
multiplies factors, and a factor is a numeral or an expression between brackets. A numeral writes
its thousands, hundreds, tens and ones one after the other, each of which may be missing but not all
of them; a look at the next letter keeps the empty text from being a numeral.

The rules refer to each other in a circle, through the brackets. The circle is cut by a depth: an
expression of some depth holds brackets of a smaller depth only. A text cannot nest brackets deeper
than it is long, so `RomanArithmetic.parse` allows as much depth as the text has characters and one
more, and no text is refused because of its depth.
-/

namespace RomanArithmetic

namespace Grammar

open Recognizer

/-- The version of the grammar, for those who keep parse trees. -/
def version : String :=
  "1.0.0"

/-! ### Numerals -/

/-- One to three thousands. -/
def thousands : Recognizer :=
  rule .thousands ((symbol ['M']).andThen (upTo 2 (symbol ['M'])))

/-- A digit of the hundreds. -/
def hundreds : Recognizer :=
  rule .hundreds Place.hundreds.form

/-- A digit of the tens. -/
def tens : Recognizer :=
  rule .tens Place.tens.form

/-- A digit of the ones. -/
def ones : Recognizer :=
  rule .ones Place.ones.form

/-- A numeral. -/
def numeral : Recognizer :=
  rule .numeral <|
    (ahead (leaf .letter)).andThen <|
    (optional thousands).andThen <|
    (optional hundreds).andThen <|
    (optional tens).andThen <|
    optional ones

/-! ### Expressions -/

/-- A numeral, or something between brackets. -/
def factor (inner : Recognizer) : Recognizer :=
  rule .factor <|
    numeral.orElse <|
    (symbol ['(']).andThen <| inner.andThen <| symbol [')']

/-- Operands with operators of a level between them. -/
def chain (level : Level) (operand : Recognizer) : Recognizer :=
  operand.andThen (many ((leaf (.operator level)).andThen operand))

/-- A product of factors. -/
def term (inner : Recognizer) : Recognizer :=
  rule .term (chain .multiplicative (factor inner))

/-- A sum of terms in which brackets are nested less than `depth` deep. -/
def expression (depth : Nat) : Recognizer := fun c =>
  match depth with
  | 0 => never c
  | depth + 1 => rule .expression (chain .additive (term (expression depth))) c

end Grammar

/-- The parse tree of a calculation. -/
def parse (text : List Char) : Except ParseFailure Tree :=
  ((Grammar.expression (text.length + 1)).whole text).map (.node .calculation 0 text.length)

end RomanArithmetic
