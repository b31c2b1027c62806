/-!
# Patterns of literal words

A pattern describes a choice between words: the words one after the other with `|` between them.
Characters with a meaning of their own in a pattern are written behind a backslash, and so are the
blanks. `RomanArithmetic.Pattern.ofWords` writes a pattern and `RomanArithmetic.Pattern.toWords?`
reads one.
-/

namespace RomanArithmetic.Pattern

/-- The characters that are written behind a backslash: those with a meaning in a pattern, be it
between square brackets only, and the blanks and the number sign, which a pattern may otherwise
skip. -/
def special : List Char :=
  ['(', ')', '[', ']', '\x7b', '\x7d', '?', '*', '+', '-', '|', '^', '$', '\x5c', '.', '&', '~',
    '#', ' ', '\t', '\n', '\r', '\x0b', '\x0c']

/-- How a character of a word is written. -/
def escape (c : Char) : List Char :=
  if c ∈ special then ['\x5c', c] else [c]

/-- The pattern that a word is described by. -/
def ofWord (word : List Char) : List Char :=
  word.flatMap escape

/-- The pattern for a choice between words, in their order. -/
def ofWords (words : List (List Char)) : List Char :=
  ['|'].intercalate (words.map ofWord)

/-- The characters that do not stand for themselves in a pattern, unless a backslash is in front of
them. -/
def metacharacters : List Char :=
  ['.', '^', '$', '*', '+', '?', '\x7b', '\x7d', '[', ']', '\x5c', '|', '(', ')']

/-- The words that a pattern describes: a backslash makes the next character stand for itself, and
a bar begins a new word. There are none if another metacharacter stands alone, or if nothing follows
a backslash. -/
def toWords? : List Char → Option (List (List Char))
  | [] => some [[]]
  | '\x5c' :: c :: rest => (toWords? rest).map (consHead c)
  | '|' :: rest => (toWords? rest).map ([] :: ·)
  | c :: rest => if c ∈ metacharacters then none else (toWords? rest).map (consHead c)
where
  /-- Puts a character in front of the first word. -/
  consHead (c : Char) : List (List Char) → List (List Char)
    | [] => [[c]]
    | word :: words => (c :: word) :: words

example : ofWords [['+'], ['-']] = ['\x5c', '+', '|', '\x5c', '-'] := by decide

example : toWords? ['\x5c', '+', '|', '\x5c', '-'] = some [['+'], ['-']] := by decide

end RomanArithmetic.Pattern
