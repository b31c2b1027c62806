import RomanArithmetic.Evaluation.Action
import RomanArithmetic.Grammar
import RomanArithmetic.Text.Characters

/-!
# The calculator

From an input to an integer: `RomanArithmetic.evaluate` refuses what is no text and the empty text,
takes the separators out of any other text, reads it as a calculation and evaluates the parse tree.
`RomanArithmetic.evaluateText` is the part that begins with a text to be read as it stands. Both are
told how long a number may be that is written down on the way.
-/

namespace RomanArithmetic

/-- The kinds of values that are no texts. -/
inductive Kind where
  | integer
  | decimal
  | truth
  | list
  | table
deriving DecidableEq, Repr

/-- The name under which a message mentions a kind. -/
def Kind.name : Kind → String
  | integer => "int"
  | decimal => "float"
  | truth => "bool"
  | list => "list"
  | table => "dict"

/-- What can be handed to the calculator. -/
inductive Input where
  | absent
  | text (text : List Char)
  | other (kind : Kind)
deriving DecidableEq, Repr

/-- Why there is no result. -/
inductive Refusal where
  /-- There is nothing to calculate. -/
  | empty
  /-- The input is no text. -/
  | notText (kind : Kind)
  /-- The text is no calculation. -/
  | unreadable (failure : ParseFailure)
  /-- The parse tree cannot be evaluated. -/
  | faulty (fault : Fault)
deriving DecidableEq, Repr

/-- The message of a refusal. -/
def Refusal.message : Refusal → String
  | empty => "expression is None or empty"
  | notText kind => "expression must be a str, not " ++ kind.name
  | unreadable failure => failure.message
  | faulty fault => fault.message

/-- The value of a text that is read as it stands. -/
def evaluateText (limit : DigitLimit) (text : List Char) : Except Refusal Int :=
  match parse text with
  | .error failure => .error (.unreadable failure)
  | .ok tree => (tree.value limit).outcome.mapError .faulty

/-- The text that an input asks to read: the input's own without the separators. -/
def Input.canonical : Input → Except Refusal (List Char)
  | absent => .error .empty
  | text [] => .error .empty
  | text (c :: rest) => .ok (stripSeparators (c :: rest))
  | other kind => .error (.notText kind)

/-- The value of an input. -/
def evaluate (limit : DigitLimit) (input : Input) : Except Refusal Int :=
  match input.canonical with
  | .error refusal => .error refusal
  | .ok text => evaluateText limit text

end RomanArithmetic
