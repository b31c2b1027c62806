import RomanArithmetic.Text.Sorted

/-!
# Operators

The table of the binary operators: what each is written as, what it does to two integers, how
tightly it binds and to which side it groups. Grammar and evaluation both read this table, so what
is recognized and what is computed cannot drift apart.

A level is a set of operators that bind equally tightly; `RomanArithmetic.Level.all` lists the
levels from the loosest to the tightest, and `RomanArithmetic.Operator.precedence?` is the place
of an operator's level in that list.
-/

namespace RomanArithmetic

/-- A binary operator. -/
inductive Operator where
  | add
  | sub
  | mul
deriving DecidableEq, Repr

/-- The side on which operators of one level are grouped first. -/
inductive Associativity where
  | left
  | right
deriving DecidableEq, Repr

/-- The word for a side. -/
def Associativity.name : Associativity → String
  | left => "left"
  | right => "right"

namespace Operator

/-- All operators. -/
def all : List Operator :=
  [add, sub, mul]

/-- The character that the operator is written as. -/
def symbol : Operator → Char
  | add => '+'
  | sub => '-'
  | mul => '*'

/-- What the operator does to two integers. -/
def apply : Operator → Int → Int → Int
  | add, a, b => a + b
  | sub, a, b => a - b
  | mul, a, b => a * b

/-- Every operator groups from the left: `a - b - c` is `(a - b) - c`. -/
def associativity : Operator → Associativity
  | _ => .left

/-- The operator that is written as this text, if one is. -/
def ofText? (text : List Char) : Option Operator :=
  all.find? fun op => text = [op.symbol]

/-- The texts of all operators, in the order of the code points. -/
def sortedTexts : List String :=
  sortedDistinct (all.map fun op => String.singleton op.symbol)

/-- The text of every operator with the side from which it groups, in the order of the texts. -/
def associations : List (String × Associativity) :=
  sortedTexts.filterMap fun text =>
    (ofText? text.toList).map fun op => (text, op.associativity)

theorem ofText?_eq_some_iff {text : List Char} {op : Operator} :
    ofText? text = some op ↔ text = [op.symbol] := by
  constructor
  · intro h
    simpa using List.find?_some h
  · rintro rfl
    cases op <;> decide

end Operator

/-- A set of operators that bind equally tightly. -/
inductive Level where
  | additive
  | multiplicative
deriving DecidableEq, Repr

namespace Level

/-- The levels, from the loosest to the tightest. -/
def all : List Level :=
  [additive, multiplicative]

/-- The operators of the level. -/
def operators : Level → List Operator
  | additive => [.add, .sub]
  | multiplicative => [.mul]

@[simp] theorem add_mem_operators : .add ∈ additive.operators :=
  List.mem_cons_self

@[simp] theorem sub_mem_operators : .sub ∈ additive.operators :=
  List.mem_cons_of_mem _ List.mem_cons_self

@[simp] theorem mul_mem_operators : .mul ∈ multiplicative.operators :=
  List.mem_cons_self

/-- The characters of the operators of the level. -/
def symbols (level : Level) : List Char :=
  level.operators.map Operator.symbol

/-- The texts of the operators of the level. -/
def texts (level : Level) : List (List Char) :=
  level.symbols.map fun c => [c]

end Level

namespace Operator

/-- How tightly the operator written as this text binds: the place of its level among all levels,
counted from the loosest. There is none if no operator is written so. -/
def precedence? (text : List Char) : Option Nat :=
  Level.all.findIdx? fun level => text ∈ level.texts

/-- How tightly an operator binds. -/
def precedence (op : Operator) : Nat :=
  (precedence? [op.symbol]).getD 0

example : add.precedence = 0 ∧ mul.precedence = 1 ∧ precedence? ['/'] = none := by decide

end Operator

end RomanArithmetic
