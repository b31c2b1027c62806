/-!
# Sorted texts without repetition

What a failed recognition expected is shown as a set: each description once, in the order of the
code points. `RomanArithmetic.sortedDistinct` brings a list of descriptions into that form; it
keeps exactly the members of the list (`RomanArithmetic.mem_sortedDistinct`), and its result is
strictly increasing (`RomanArithmetic.pairwise_sortedDistinct`).
-/

namespace RomanArithmetic

/-- Puts a text at its place in a sorted list, unless it stands there already. -/
def insertDistinct (s : String) : List String → List String
  | [] => [s]
  | t :: rest =>
    if s < t then s :: t :: rest
    else if s = t then t :: rest
    else t :: insertDistinct s rest

theorem mem_insertDistinct {s t : String} {l : List String} :
    t ∈ insertDistinct s l ↔ t = s ∨ t ∈ l := by
  induction l with
  | nil => simp [insertDistinct]
  | cons u l ih =>
    simp only [insertDistinct]
    split
    · simp
    · split
      · next h => subst h; simp
      · simp only [List.mem_cons, ih]; exact or_left_comm

theorem pairwise_insertDistinct {s : String} {l : List String} (h : l.Pairwise (· < ·)) :
    (insertDistinct s l).Pairwise (· < ·) := by
  induction l with
  | nil => simp [insertDistinct]
  | cons t l ih =>
    obtain ⟨ht, hl⟩ := List.pairwise_cons.1 h
    simp only [insertDistinct]
    split
    · next hst =>
      refine List.pairwise_cons.2 ⟨fun u hu => ?_, h⟩
      rcases List.mem_cons.1 hu with rfl | hu
      · exact hst
      · exact String.lt_trans hst (ht u hu)
    · split
      · exact h
      · next hst hne =>
        -- what is new in the tail is `s` itself, and `s` comes after `t`
        refine List.pairwise_cons.2 ⟨fun u hu => ?_, ih hl⟩
        rcases mem_insertDistinct.1 hu with rfl | hu
        · exact Std.lt_of_le_of_ne (String.not_lt.1 hst) (Ne.symm hne)
        · exact ht u hu

/-- The members of a list in increasing order, each of them once. -/
def sortedDistinct (l : List String) : List String :=
  l.foldr insertDistinct []

theorem mem_sortedDistinct {s : String} {l : List String} : s ∈ sortedDistinct l ↔ s ∈ l := by
  induction l with
  | nil => simp [sortedDistinct]
  | cons t l ih =>
    show s ∈ insertDistinct t (sortedDistinct l) ↔ s ∈ t :: l
    rw [mem_insertDistinct, ih, List.mem_cons]

theorem pairwise_sortedDistinct (l : List String) : (sortedDistinct l).Pairwise (· < ·) := by
  induction l with
  | nil => exact List.Pairwise.nil
  | cons t l ih => exact pairwise_insertDistinct ih

end RomanArithmetic
