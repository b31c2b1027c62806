import RomanArithmetic.Grammar
import RomanArithmetic.Numeral.Spelling

/-!
# The language of calculations

What a calculation is and what it is worth, said without a recognizer: `RomanArithmetic.Derives` is
the ordinary context-free grammar, in which sums and products recurse to the left, alternatives have
no order and nothing is greedy, and in which every derivation carries a value. It is what the
recognizer and the evaluation of parse trees are to be measured against.

A text is accepted when it can be read as a calculation, and viable when something can be written
behind it so that the whole is accepted. How far a text makes sense is how long its longest viable
beginning is.
-/

namespace RomanArithmetic

/-! ### Derivations -/

/-- What a stretch of a calculation is. -/
inductive Category where
  | expression
  | term
  | factor
deriving DecidableEq, Repr

/-- A text of some category has a derivation of some value. -/
inductive Derives : Category → List Char → Int → Prop
  /-- A numeral is a factor. -/
  | numeral {w : List Char} {v : Int} : IsNumeral w v → Derives .factor w v
  /-- An expression between brackets is a factor. -/
  | brackets {w : List Char} {v : Int} :
      Derives .expression w v → Derives .factor ('(' :: w ++ [')']) v
  /-- A factor is a term. -/
  | factor {w : List Char} {v : Int} : Derives .factor w v → Derives .term w v
  /-- A term times a factor is a term. -/
  | mul {s t : List Char} {a b : Int} :
      Derives .term s a → Derives .factor t b → Derives .term (s ++ '*' :: t) (a * b)
  /-- A term is an expression. -/
  | term {w : List Char} {v : Int} : Derives .term w v → Derives .expression w v
  /-- An expression plus a term is an expression. -/
  | add {s t : List Char} {a b : Int} :
      Derives .expression s a → Derives .term t b → Derives .expression (s ++ '+' :: t) (a + b)
  /-- An expression minus a term is an expression. -/
  | sub {s t : List Char} {a b : Int} :
      Derives .expression s a → Derives .term t b → Derives .expression (s ++ '-' :: t) (a - b)

/-! ### Accepted texts and their beginnings -/

/-- The text can be read as a calculation. -/
def Accepted (text : List Char) : Prop :=
  ∃ tree, parse text = .ok tree

/-- The text is the beginning of an accepted text. -/
def Viable (text : List Char) : Prop :=
  ∃ rest, Accepted (text ++ rest)

/-- A leaf that is one character long accepts this character. -/
def Leaf.Matches (leaf : Leaf) (c : Char) : Prop :=
  leaf.take? [c] = some ([c], [])

instance (leaf : Leaf) (c : Char) : Decidable (leaf.Matches c) :=
  inferInstanceAs (Decidable (_ = _))

end RomanArithmetic
