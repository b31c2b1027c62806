import RomanArithmetic.Recognition.Leaf

/-!
# The furthest failure

While a text is recognized, leaves fail all the time, and most of these failures are recovered from
by trying something else. What a reader of an error wants to know is how far the text made sense,
and what could have followed there: the greatest position at which a leaf failed, and the leaves
that failed at that position, in the order in which they were tried.

`RomanArithmetic.Furthest` is that record. The record of a whole recognition is put together from
those of its parts (`RomanArithmetic.Furthest.merge`), in the order in which they were tried.
-/

namespace RomanArithmetic

/-- The greatest position at which a leaf failed, and the leaves that failed there, in order. -/
structure Furthest where
  position : Nat
  leaves : List Leaf
deriving DecidableEq, Repr

namespace Furthest

/-- Nothing has failed. -/
def none : Furthest :=
  ⟨0, []⟩

/-- One leaf has failed. -/
def failed (leaf : Leaf) (position : Nat) : Furthest :=
  ⟨position, [leaf]⟩

/-- What failed first, followed by what failed afterwards: the greater position wins, and at the
same position the leaves are joined. -/
def merge (first second : Furthest) : Furthest :=
  if first.position < second.position then second
  else if second.position < first.position then first
  else ⟨first.position, first.leaves ++ second.leaves⟩

@[simp] theorem none_merge (a : Furthest) : none.merge a = a := by
  obtain ⟨p, l⟩ := a
  by_cases h : 0 < p
  · simp [merge, none, h]
  · obtain rfl : p = 0 := by omega
    simp [merge, none]

@[simp] theorem merge_none (a : Furthest) : a.merge none = a := by
  obtain ⟨p, l⟩ := a
  by_cases h : 0 < p
  · simp [merge, none, h]
  · obtain rfl : p = 0 := by omega
    simp [merge, none]

theorem position_merge (a b : Furthest) : (a.merge b).position = max a.position b.position := by
  grind [merge]

end Furthest

end RomanArithmetic
