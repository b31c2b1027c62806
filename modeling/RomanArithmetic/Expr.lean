import RomanArithmetic.Evaluation.Action
import RomanArithmetic.Numeral.Spelling

/-!
# Expressions

A calculation without the way it is written: numbers and operators in a binary tree.
`RomanArithmetic.Expr.value` is the integer it stands for, and `RomanArithmetic.Renders` says which
texts write it. There are many: brackets have to be put where an operand binds more loosely than its
place demands, and may be put around any operand.

An expression has a value of any size, but to apply its operators one by one and to note how, the
numbers must not be too long to be written. `RomanArithmetic.Expr.Fits` says so of an expression,
and `RomanArithmetic.Fits` of a text.

A parse tree holds everything that is written: brackets, and operands that stand in a row with
operators between them. `RomanArithmetic.Tree.expr?` reads the expression from it, by dropping the
brackets and grouping every row from the left.
-/

namespace RomanArithmetic

/-- A binary tree of operators over numbers. -/
inductive Expr where
  | number (n : Nat)
  | binary (op : Operator) (left right : Expr)
deriving DecidableEq, Repr

/-- The integer that an expression stands for. -/
def Expr.value : Expr → Int
  | number n => n
  | binary op left right => op.apply left.value right.value

/-- **An expression fits a limit** on the digits of written numbers: for every operator in it, its
two operands and what it makes of them can be written. -/
def Expr.Fits (limit : DigitLimit) : Expr → Prop
  | number _ => True
  | binary op left right =>
    left.Fits limit ∧ right.Fits limit ∧ limit.Allows left.value ∧ limit.Allows right.value ∧
      limit.Allows (op.apply left.value right.value)

theorem Expr.fits_unlimited (e : Expr) : e.Fits .unlimited := by
  induction e with
  | number _ => exact trivial
  | binary _ _ _ ihl ihr =>
    exact ⟨ihl, ihr, DigitLimit.unlimited_allows _, DigitLimit.unlimited_allows _,
      DigitLimit.unlimited_allows _⟩

/-! ### The texts of an expression -/

/-- A text writes an expression at a place that demands some tightness. An operator may stand there
without brackets if it is tight enough. Its left operand may then be as loose as the operator
itself, because operators group from the left, and its right operand has to be tighter. -/
inductive Renders : Nat → Expr → List Char → Prop
  /-- A number is written as its numeral. -/
  | number {level n : Nat} : 1 ≤ n → n ≤ 3999 → Renders level (.number n) (Numeral.ofNat n)
  /-- An operator stands between its operands. -/
  | binary {level : Nat} {op : Operator} {left right : Expr} {s t : List Char} :
      level ≤ op.precedence → Renders op.precedence left s → Renders (op.precedence + 1) right t →
      Renders level (.binary op left right) (s ++ op.symbol :: t)
  /-- Anything may be put between brackets. -/
  | brackets {level : Nat} {e : Expr} {s : List Char} :
      Renders 0 e s → Renders level e ('(' :: s ++ [')'])

/-- **A text fits a limit** on the digits of written numbers, if the expression that it writes does.
There is nothing to fit in a text that writes none. -/
def Fits (limit : DigitLimit) (text : List Char) : Prop :=
  ∀ e, Renders 0 e text → e.Fits limit

theorem fits_unlimited (text : List Char) : Fits .unlimited text := fun e _ =>
  e.fits_unlimited

/-! ### The expression of a parse tree -/

namespace Tree

/-- The operator that a tree is, if it is one. -/
def operator? : Tree → Option Operator
  | leaf (.operator _) _ text => Operator.ofText? text
  | _ => none

mutual

/-- The expression that a tree writes. -/
def expr? : Tree → Option Expr
  | leaf _ _ _ => none
  | node .numeral start stop children =>
    match ((node .numeral start stop children).value .unlimited).outcome with
    | .ok n => some (.number n.toNat)
    | .error _ => none
  | node .factor _ _ [_, inner, _] => inner.expr?
  | node .factor _ _ [numeral] => numeral.expr?
  | node .term _ _ (first :: rest) => first.expr?.bind (exprFrom? · rest)
  | node .expression _ _ (first :: rest) => first.expr?.bind (exprFrom? · rest)
  | node .calculation _ _ (expression :: _) => expression.expr?
  | node _ _ _ _ => none

/-- The expression of a row that goes on behind a first operand. -/
def exprFrom? (left : Expr) : List Tree → Option Expr
  | [] => some left
  | op :: right :: rest =>
    match op.operator?, right.expr? with
    | some op, some right => exprFrom? (.binary op left right) rest
    | _, _ => none
  | [_] => none

end

end Tree

end RomanArithmetic
