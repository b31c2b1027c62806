import RomanArithmetic.Recognition.Leaf

/-!
# Parse trees

A parse tree says how a text was recognized: its leaves are the matched pieces of the text, and each
inner node is a grammar rule with the stretch of the text that it covers. Positions count
characters from the beginning of the text.

Besides the tree itself, this file has the views of it that a reader is shown: the text that it
covers, the nodes in the order in which they begin (`RomanArithmetic.Tree.preorder`), and a summary
of the matched pieces.
-/

namespace RomanArithmetic

/-- A rule of the grammar that makes an inner node. -/
inductive Rule where
  | thousands
  | hundreds
  | tens
  | ones
  | numeral
  | factor
  | term
  | expression
  | calculation
deriving DecidableEq, Repr

namespace Rule

/-- All rules, from the innermost to the outermost. -/
def all : List Rule :=
  [thousands, hundreds, tens, ones, numeral, factor, term, expression, calculation]

/-- The name of the rule. -/
def name : Rule → String
  | thousands => "thousands"
  | hundreds => "hundreds"
  | tens => "tens"
  | ones => "ones"
  | numeral => "numeral"
  | factor => "factor"
  | term => "term"
  | expression => "expression"
  | calculation => "calculation"

/-- The rule with this name, if there is one. -/
def ofName? (name : String) : Option Rule :=
  all.find? fun rule => rule.name = name

theorem ofName?_name (rule : Rule) : ofName? rule.name = some rule := by
  cases rule <;> decide

end Rule

/-- A parse tree. -/
inductive Tree where
  /-- A piece of the text that a leaf of the grammar matched, and where it begins. -/
  | leaf (leaf : Leaf) (start : Nat) (text : List Char)
  /-- A rule, where its stretch of the text begins and ends, and what it is made of. -/
  | node (rule : Rule) (start stop : Nat) (children : List Tree)
deriving Repr

namespace Tree

/-- The position of the first character. -/
def start : Tree → Nat
  | leaf _ start _ => start
  | node _ start _ _ => start

/-- The position just behind the last character. -/
def stop : Tree → Nat
  | leaf _ start text => start + text.length
  | node _ _ stop _ => stop

/-- The name of the rule that made the node; a symbol has none. -/
def ruleName : Tree → String
  | leaf l _ _ => l.ruleName
  | node rule _ _ _ => rule.name

/-- The matched text of a leaf. -/
def leafText? : Tree → Option (List Char)
  | leaf _ _ text => some text
  | node _ _ _ _ => none

/-- Whether the tree is a single symbol. -/
def isSymbol : Tree → Bool
  | leaf (.symbol _) _ _ => true
  | _ => false

mutual

/-- The text that the tree covers: the texts of its leaves, joined. -/
def text : Tree → List Char
  | leaf _ _ text => text
  | node _ _ _ children => textAll children

/-- The text that neighbouring trees cover. -/
def textAll : List Tree → List Char
  | [] => []
  | tree :: trees => tree.text ++ textAll trees

end

mutual

/-- The tree and everything in it, each node before its children, with its depth below the top. -/
def preorder (tree : Tree) (depth : Nat) : List (Nat × Tree) :=
  (depth, tree) :: match tree with
    | leaf _ _ _ => []
    | node _ _ _ children => preorderAll children (depth + 1)

/-- Neighbouring trees and everything in them, one after the other. -/
def preorderAll (trees : List Tree) (depth : Nat) : List (Nat × Tree) :=
  match trees with
  | [] => []
  | tree :: trees => tree.preorder depth ++ preorderAll trees depth

end

mutual

/-- The matched pieces, with a bar between neighbours. -/
def summary : Tree → String
  | leaf _ _ text => String.ofList text
  | node _ _ _ children => " | ".intercalate (summaries children)

/-- The summaries of neighbouring trees. -/
def summaries : List Tree → List String
  | [] => []
  | tree :: trees => tree.summary :: summaries trees

end

@[simp] theorem text_leaf (l : Leaf) (start : Nat) (w : List Char) :
    (leaf l start w).text = w := rfl

@[simp] theorem text_node (rule : Rule) (start stop : Nat) (children : List Tree) :
    (node rule start stop children).text = textAll children := rfl

@[simp] theorem textAll_nil : textAll [] = [] := rfl

@[simp] theorem textAll_cons (tree : Tree) (trees : List Tree) :
    textAll (tree :: trees) = tree.text ++ textAll trees := rfl

theorem textAll_eq_flatMap (trees : List Tree) : textAll trees = trees.flatMap text := by
  induction trees with
  | nil => rfl
  | cons tree trees ih => rw [textAll, ih, List.flatMap_cons]

@[simp] theorem textAll_append (s t : List Tree) : textAll (s ++ t) = textAll s ++ textAll t := by
  simp only [textAll_eq_flatMap, List.flatMap_append]

end Tree

end RomanArithmetic
