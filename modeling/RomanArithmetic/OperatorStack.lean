import RomanArithmetic.Numeral.Spelling

/-!
# Evaluation with two stacks

Another way to a value, which knows nothing of the grammar: a calculation is cut into tokens, and
the tokens are worked off from left to right with a stack of operands and a stack of what is still
to be applied to them. Which of two operators goes first is decided by the table alone, by their
precedence and, between equals, by their associativity.
-/

namespace RomanArithmetic

/-- A piece of a calculation. -/
inductive Token where
  | operand (value : Int)
  | operator (op : Operator)
  | opening
  | closing
deriving DecidableEq, Repr

namespace Token

/-- The token that is written as one character. -/
def ofChar? (c : Char) : Option Token :=
  if c = '(' then some opening
  else if c = ')' then some closing
  else (Operator.ofText? [c]).map operator

/-- The operand that a run of letters is; there is none without letters. -/
def ofRun : List Char → List Token
  | [] => []
  | c :: run => [operand (Numeral.letterSum (c :: run))]

/-- Cuts a text into tokens, when a run of letters has been read before it. -/
def ofTextFrom? (run : List Char) : List Char → Option (List Token)
  | [] => some (ofRun run)
  | c :: text =>
    if c ∈ numeralLetters then ofTextFrom? (run ++ [c]) text
    else
      match ofChar? c, ofTextFrom? [] text with
      | some token, some tokens => some (ofRun run ++ token :: tokens)
      | _, _ => none

/-- Cuts a text into tokens. Every run of letters is one operand, and every other token is one
character. -/
def ofText? (text : List Char) : Option (List Token) :=
  ofTextFrom? [] text

end Token

/-- What waits on the stack of operators. -/
inductive Pending where
  | operator (op : Operator)
  | opening
deriving DecidableEq, Repr

namespace OperatorStack

/-- Whether a waiting operator is applied before the next one: it binds tighter, or equally tightly
and groups from the left. -/
def goesFirst (waiting next : Operator) : Bool :=
  next.precedence < waiting.precedence ||
    (next.precedence == waiting.precedence && waiting.associativity == .left)

/-- Applies an operator to the two operands on top, of which the upper one is its right operand. -/
def applyTop (op : Operator) : List Int → Option (List Int)
  | right :: left :: operands => some (op.apply left right :: operands)
  | _ => none

/-- Applies the waiting operators that go before the next one. -/
def applyBefore (next : Operator) : List Int → List Pending → Option (List Int × List Pending)
  | operands, .operator op :: pending =>
    if goesFirst op next then
      match applyTop op operands with
      | some operands => applyBefore next operands pending
      | none => none
    else some (operands, .operator op :: pending)
  | operands, pending => some (operands, pending)

/-- Applies everything that waits above the last opening bracket, and drops the bracket. -/
def close : List Int → List Pending → Option (List Int × List Pending)
  | operands, .operator op :: pending =>
    match applyTop op operands with
    | some operands => close operands pending
    | none => none
  | operands, .opening :: pending => some (operands, pending)
  | _, [] => none

/-- Applies everything that waits at the end. One operand has to be left, and no bracket. -/
def finish : List Int → List Pending → Option Int
  | operands, .operator op :: pending =>
    match applyTop op operands with
    | some operands => finish operands pending
    | none => none
  | _, .opening :: _ => none
  | [value], [] => some value
  | _, [] => none

/-- Works off tokens. -/
def run : List Token → List Int → List Pending → Option Int
  | [], operands, pending => finish operands pending
  | .operand value :: tokens, operands, pending => run tokens (value :: operands) pending
  | .operator op :: tokens, operands, pending =>
    match applyBefore op operands pending with
    | some (operands, pending) => run tokens operands (.operator op :: pending)
    | none => none
  | .opening :: tokens, operands, pending => run tokens operands (.opening :: pending)
  | .closing :: tokens, operands, pending =>
    match close operands pending with
    | some (operands, pending) => run tokens operands pending
    | none => none

/-- The value of a text. -/
def evaluate? (text : List Char) : Option Int :=
  (Token.ofText? text).bind fun tokens => run tokens [] []

example : evaluate? ['X', '-', 'V', '-', 'I', '*', '(', 'I', '+', 'I', ')'] = some 3 := by decide

end OperatorStack

end RomanArithmetic
