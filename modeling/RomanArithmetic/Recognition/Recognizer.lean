import RomanArithmetic.Recognition.Furthest
import RomanArithmetic.Tree

/-!
# Recognizers

A recognizer reads a text from a position on. It either finds something there, and says what is left
of the text, or it finds nothing; and in both cases it says what the furthest failure on the way
was, for even a recognizer that finds something may have tried other things before, and these
attempts count when the text as a whole turns out to be wrong.

Recognizers are put together from leaves by sequence, choice and repetition. A choice is ordered:
the second possibility is tried only where the first finds nothing, and once the first has found
something there is no way back to the second. A repetition takes all it can get. Every combination
is a total function: a bounded repetition recurses on its bound, and an unbounded one
(`RomanArithmetic.Recognizer.many`) is bounded by the number of characters that are left.
-/

namespace RomanArithmetic

/-- A position in a text and what is left of the text from there on. -/
structure Cursor where
  position : Nat
  rest : List Char
deriving DecidableEq, Repr

/-- What a recognizer answers. -/
structure Outcome where
  /-- The trees that were found and where they end, if something was found. -/
  found : Option (List Tree × Cursor)
  /-- The furthest failure on the way, whether it was recovered from or not. -/
  furthest : Furthest
deriving Repr

/-- A way to read a text from a position on. -/
abbrev Recognizer :=
  Cursor → Outcome

namespace Recognizer

/-! ### Leaves -/

/-- Finds the empty text everywhere. -/
def empty : Recognizer := fun c =>
  ⟨some ([], c), .none⟩

/-- Finds nothing, and does not even try. -/
def never : Recognizer := fun _ =>
  ⟨none, .none⟩

/-- Finds a leaf. -/
def leaf (leaf : Leaf) : Recognizer := fun c =>
  match leaf.take? c.rest with
  | some (text, rest) =>
    ⟨some ([.leaf leaf c.position text], ⟨c.position + text.length, rest⟩), .none⟩
  | none => ⟨none, .failed leaf c.position⟩

/-- Finds a text that stands for itself. -/
def symbol (text : List Char) : Recognizer :=
  leaf (.symbol text)

/-! ### Sequence and choice -/

/-- One thing after the other. -/
def andThen (first second : Recognizer) : Recognizer := fun c =>
  match first c with
  | ⟨none, furthest⟩ => ⟨none, furthest⟩
  | ⟨some (trees, c'), furthest⟩ =>
    -- what failed in the first part failed before anything in the second
    let after := second c'
    ⟨after.found.map fun (trees', c'') => (trees ++ trees', c''), furthest.merge after.furthest⟩

/-- The first possibility, or the second where the first finds nothing. -/
def orElse (first second : Recognizer) : Recognizer := fun c =>
  match first c with
  | ⟨some found, furthest⟩ => ⟨some found, furthest⟩
  | ⟨none, furthest⟩ =>
    -- the second possibility starts where the first one did
    let instead := second c
    ⟨instead.found, furthest.merge instead.furthest⟩

/-- Something that may also be missing. -/
def optional (r : Recognizer) : Recognizer :=
  r.orElse empty

/-- Makes sure that something could be found here, without going past it. -/
def ahead (r : Recognizer) : Recognizer := fun c =>
  let outcome := r c
  ⟨outcome.found.map fun _ => ([], c), outcome.furthest⟩

/-! ### Repetition -/

/-- As many as there are, but not more than a number of times. -/
def upTo (limit : Nat) (r : Recognizer) : Recognizer := fun c =>
  match limit with
  | 0 => empty c
  | limit + 1 => optional (r.andThen (upTo limit r)) c

/-- As many as there are. Where each of them takes at least one character, the bound is never what
ends the repetition. -/
def many (r : Recognizer) : Recognizer := fun c =>
  -- one more than there are characters, so that the attempt after the last success is made too
  upTo (c.rest.length + 1) r c

/-! ### Rules -/

/-- Puts what is found under a node of a rule. -/
def rule (rule : Rule) (r : Recognizer) : Recognizer := fun c =>
  let outcome := r c
  ⟨outcome.found.map fun (trees, c') => ([.node rule c.position c'.position trees], c'),
    outcome.furthest⟩

end Recognizer

end RomanArithmetic
