import RomanArithmetic.Operator
import RomanArithmetic.Text.Pattern

/-!
# Leaves

A leaf is a piece of a text that is recognized in one step: a fixed symbol, a letter of a numeral,
an operator of a level, or the end of the text. Everything the grammar accepts is put together from
leaves, and a failure to recognize is always the failure of a leaf.

Each leaf carries a label, from which it is described in two ways: by what it matches, for the list
of what was expected (`RomanArithmetic.Label.description`), and by its name, for the message
(`RomanArithmetic.Label.title`).
-/

namespace RomanArithmetic

/-- How something recognizable is presented. An empty text means that there is nothing to show. -/
structure Label where
  /-- What is matched, if it can be written down. -/
  pattern : Option String
  /-- The name of the grammar rule. -/
  ruleName : String
  /-- The name used when there is no rule. -/
  name : String
deriving DecidableEq, Repr

namespace Label

/-- The first of pattern, rule name and name that is not empty; the name as a last resort. -/
def description (label : Label) : String :=
  let pattern := label.pattern.getD ""
  if pattern ≠ "" then pattern
  else if label.ruleName ≠ "" then label.ruleName
  else label.name

/-- The name under which a message mentions the label: that of its rule, if it has one. -/
def title (label : Label) : String :=
  if label.ruleName ≠ "" then label.ruleName else label.name

end Label

/-- What is left of a text after a symbol at its beginning, if it begins with it. -/
def dropSymbol? : List Char → List Char → Option (List Char)
  | [], text => some text
  | _ :: _, [] => none
  | s :: symbol, c :: text => if s = c then dropSymbol? symbol text else none

theorem dropSymbol?_eq_some_iff {symbol text rest : List Char} :
    dropSymbol? symbol text = some rest ↔ text = symbol ++ rest := by
  induction symbol generalizing text with
  | nil => simp [dropSymbol?]
  | cons s symbol ih =>
    cases text with
    | nil => simp [dropSymbol?]
    | cons c text =>
      by_cases h : s = c
      · simp [dropSymbol?, h, ih]
      · simp [dropSymbol?, h, Ne.symm h]

/-- The seven letters of the Roman numerals, from the greatest value to the least. -/
def numeralLetters : List Char :=
  ['M', 'D', 'C', 'L', 'X', 'V', 'I']

/-- A piece of a text that is recognized in one step. -/
inductive Leaf where
  /-- A text that stands for itself. -/
  | symbol (text : List Char)
  /-- Any one letter of a numeral. -/
  | letter
  /-- Any one operator of a level. -/
  | operator (level : Level)
  /-- The end of the text. -/
  | endOfText
deriving DecidableEq, Repr

namespace Leaf

/-- The rule name of the operators of a level. -/
def operatorRuleName : Level → String
  | .additive => "additive_op"
  | .multiplicative => "multiplicative_op"

/-- The name of the grammar rule that the leaf is; a symbol and a letter belong to the rule around
them. -/
def ruleName : Leaf → String
  | symbol _ => ""
  | letter => ""
  | operator level => operatorRuleName level
  | endOfText => "EOF"

/-- What the leaf matches, written as a pattern: a symbol is its own, and the end of the text has
none. -/
def pattern? : Leaf → Option (List Char)
  | symbol text => some text
  | letter => some ('[' :: numeralLetters ++ [']'])
  | operator level => some (Pattern.ofWords level.texts)
  | endOfText => none

/-- A pattern as it is named in a message: between marks, and on one line. -/
def patternName (pattern : List Char) : String :=
  String.ofList <|
    '\x27' :: pattern.flatMap (fun c => if c = '\n' then ['\x5c', 'n'] else [c]) ++ ['\x27']

/-- How the leaf is presented. -/
def label (leaf : Leaf) : Label where
  pattern := leaf.pattern?.map String.ofList
  ruleName := leaf.ruleName
  name := patternName (leaf.pattern?.getD [])

/-- The leaf's entry in a list of what was expected. -/
def description (leaf : Leaf) : String :=
  leaf.label.description

/-- The leaf's name in a message. -/
def title (leaf : Leaf) : String :=
  leaf.label.title

/-- Recognizes the leaf at the beginning of a text, and gives what it matched and what is left. -/
def take? : Leaf → List Char → Option (List Char × List Char)
  | symbol s, text => (dropSymbol? s text).map (s, ·)
  | letter, c :: text => if c ∈ numeralLetters then some ([c], text) else none
  | letter, [] => none
  | operator level, c :: text => if c ∈ level.symbols then some ([c], text) else none
  | operator _, [] => none
  | endOfText, [] => some ([], [])
  | endOfText, _ :: _ => none

example : description (.operator .additive) = "\x5c+|\x5c-" := by decide

example : title (.symbol ['(']) = "'('" := by decide

end Leaf

end RomanArithmetic
