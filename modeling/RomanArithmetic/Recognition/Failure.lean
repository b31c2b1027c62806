import RomanArithmetic.Recognition.Recognizer
import RomanArithmetic.Text.Sorted

/-!
# Failures

A text is read as a whole: something has to be found at its beginning, and the text has to end
there. If it cannot be read so, the failure tells how far the text made sense and what could have
followed, as a set of descriptions (`RomanArithmetic.ParseFailure.expected`) and as a message that
shows the place (`RomanArithmetic.ParseFailure.message`).

The simplest use of it is to count how often a symbol is repeated in a text that consists of nothing
else, where the number of repetitions is bounded (`RomanArithmetic.countRepetitions`).
-/

namespace RomanArithmetic

/-- Why a text could not be read. -/
structure ParseFailure where
  /-- The text. -/
  text : List Char
  /-- The greatest position at which something was looked for and not found. -/
  position : Nat
  /-- What was looked for there, in the order in which it was tried. -/
  leaves : List Leaf
deriving DecidableEq, Repr

namespace ParseFailure

/-- The descriptions of what could have followed, in order and without repetition. -/
def expected (failure : ParseFailure) : List String :=
  sortedDistinct (failure.leaves.map Leaf.description)

/-- The names of what could have followed, in the order in which it was tried, without
repetition. -/
def titles (failure : ParseFailure) : List String :=
  (failure.leaves.map Leaf.title).eraseDups

/-- The part of the text that made sense. -/
def before (failure : ParseFailure) : List Char :=
  failure.text.take failure.position

/-- The line of the failure, counted from one. -/
def line (failure : ParseFailure) : Nat :=
  failure.before.count '\n' + 1

/-- The place of the failure in its line, counted from one. -/
def column (failure : ParseFailure) : Nat :=
  (failure.before.reverse.takeWhile (· ≠ '\n')).length + 1

/-- The number of characters that are shown on each side of the failure. -/
def contextWidth : Nat :=
  10

/-- The neighbourhood of the failure, on one line, with a star at the failure. -/
def context (failure : ParseFailure) : List Char :=
  -- near the beginning of the text there are fewer characters to show
  let left := failure.before.drop (failure.position - contextWidth)
  let right := (failure.text.drop failure.position).take contextWidth
  ((left ++ '*' :: right).map fun c => if c = '\n' then ' ' else c).filter (· ≠ '\r')

/-- The message: what could have followed, and where. -/
def message (failure : ParseFailure) : String :=
  "Expected " ++ " or ".intercalate failure.titles ++ " at position (" ++ toString failure.line ++
    ", " ++ toString failure.column ++ ") => '" ++ String.ofList failure.context ++ "'."

end ParseFailure

/-! ### Reading a text as a whole -/

/-- Reads a text as a whole. The trees that are found end with the end of the text. -/
def Recognizer.whole (r : Recognizer) (text : List Char) : Except ParseFailure (List Tree) :=
  match r.andThen (leaf .endOfText) ⟨0, text⟩ with
  | ⟨some (trees, _), _⟩ => .ok trees
  | ⟨none, furthest⟩ => .error ⟨text, furthest.position, furthest.leaves⟩

/-! ### Counting repetitions -/

/-- Why the repetitions of a symbol could not be counted. -/
inductive CountFailure where
  /-- The bound is not positive. -/
  | bound
  /-- The text is something else, or too long. -/
  | text (failure : ParseFailure)
deriving DecidableEq, Repr

/-- The message of the failure. -/
def CountFailure.message : CountFailure → String
  | bound => "up_to() needs a positive repetition count"
  | text failure => failure.message

/-- How often the symbol is repeated in a text that consists of it. -/
def countRepetitions (limit : Int) (symbol text : List Char) : Except CountFailure Nat :=
  if limit ≤ 0 then .error .bound
  else
    match ((Recognizer.symbol symbol).upTo limit.toNat).whole text with
    | .ok trees => .ok (trees.countP Tree.isSymbol)
    | .error failure => .error (.text failure)

end RomanArithmetic
