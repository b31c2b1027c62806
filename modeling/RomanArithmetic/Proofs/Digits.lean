import RomanArithmetic.Proofs.Reading
import RomanArithmetic.Numeral.Spelling
import Mathlib.Tactic.IntervalCases

/-!
# The digits of a decimal place

The form of a place is an ordered choice between four alternatives, of which three begin with the
same symbol. It nevertheless finds the longest digit that a text begins with, whatever the three
symbols are, as long as they are different characters (`RomanArithmetic.Place.reads_form`): an
alternative that is tried earlier is never the beginning of one that is tried later.

The phrases of a place are those of a set of texts, in which every character is a leaf of its own
(`RomanArithmetic.Phrases.words`). Sequence, choice and bounded repetition of such phrases are
operations on the sets of texts, so that the alternatives can be counted up and compared with the
nine digits.
-/

namespace RomanArithmetic

open RomanArithmetic.Tree (textAll)

/-! ### Phrases of single symbols -/

/-- A leaf for each character of a text. -/
def Tree.symbols : Nat → List Char → List Tree
  | _, [] => []
  | p, x :: w => .leaf (.symbol [x]) p [x] :: symbols (p + 1) w

@[simp] theorem Tree.textAll_symbols (p : Nat) (w : List Char) : textAll (symbols p w) = w := by
  induction w generalizing p with
  | nil => rfl
  | cons x w ih => simp [symbols, ih]

theorem Tree.symbols_append (p : Nat) (v w : List Char) :
    symbols p (v ++ w) = symbols p v ++ symbols (p + v.length) w := by
  induction v generalizing p with
  | nil => rfl
  | cons x v ih => simp [symbols, ih, Nat.add_right_comm, Nat.add_assoc]

namespace Phrases

/-- **The phrases of a set of texts**, with a leaf for each character. -/
def words (W : Set (List Char)) : Phrases := fun p ts => ∃ w ∈ W, ts = Tree.symbols p w

variable {V W : Set (List Char)} {p : Nat} {u : List Char}

theorem begins_words : (words W).Begins p u ↔ ∃ w ∈ W, u <+: w := by
  constructor
  · rintro ⟨_, ⟨w, hw, rfl⟩, hu⟩
    exact ⟨w, hw, by simpa using hu⟩
  · rintro ⟨w, hw, hu⟩
    exact ⟨_, ⟨w, hw, rfl⟩, by simpa using hu⟩

theorem leaf_symbol_eq (x : Char) : leaf (.symbol [x]) = words {[x]} := by
  funext p ts
  simp [leaf, words, Tree.symbols]

theorem empty_eq_words : empty = words {[]} := by
  funext p ts
  simp [empty, words, Tree.symbols]

theorem uniform_words (hW : W.Nonempty) : (words W).Uniform where
  exists_phrase p := by
    obtain ⟨w, hw⟩ := hW
    exact ⟨_, w, hw, rfl⟩
  transfer := by
    rintro p q _ ⟨w, hw, rfl⟩
    exact ⟨_, ⟨w, hw, rfl⟩, by simp⟩

theorem words_andThen (V W : Set (List Char)) :
    (words V).andThen (words W) = words (Set.image2 (· ++ ·) V W) := by
  funext p ts
  refine propext ⟨?_, ?_⟩
  · rintro ⟨_, _, ⟨v, hv, rfl⟩, ⟨w, hw, rfl⟩, rfl⟩
    refine ⟨v ++ w, ⟨v, hv, w, hw, rfl⟩, ?_⟩
    rw [Tree.symbols_append, Tree.textAll_symbols]
  · rintro ⟨_, ⟨v, hv, w, hw, rfl⟩, rfl⟩
    refine ⟨_, _, ⟨v, hv, rfl⟩, ⟨w, hw, rfl⟩, ?_⟩
    rw [Tree.textAll_symbols]
    exact Tree.symbols_append p v w

theorem words_orElse (V W : Set (List Char)) : (words V).orElse (words W) = words (V ∪ W) := by
  funext p ts
  simp only [orElse, words, Set.mem_union, or_and_right, exists_or]

/-- **A bounded repetition of a symbol**: any number up to the bound. -/
theorem words_upTo (x : Char) (limit : Nat) :
    (words {[x]}).upTo limit = words {w | ∃ n ≤ limit, w = List.replicate n x} := by
  induction limit with
  | zero =>
    rw [upTo, empty_eq_words]
    congr 1
    ext w
    simp
  | succ limit ih =>
    rw [upTo, ih, words_andThen, optional, empty_eq_words, words_orElse]
    congr 1
    ext w
    constructor
    · rintro (⟨_, rfl, _, ⟨n, hn, rfl⟩, rfl⟩ | rfl)
      · exact ⟨n + 1, Nat.succ_le_succ hn, rfl⟩
      · exact ⟨0, Nat.zero_le _, rfl⟩
    · rintro ⟨n, hn, rfl⟩
      cases n with
      | zero => exact Or.inr rfl
      | succ n => exact Or.inl ⟨[x], rfl, _, ⟨n, Nat.le_of_succ_le_succ hn, rfl⟩, rfl⟩

end Phrases

namespace Recognizer

variable {r q : Recognizer} {V W : Set (List Char)} {c : Cursor}

theorem reads_symbol_words (x : Char) (c : Cursor) :
    (symbol [x]).Reads (Phrases.words {[x]}) c := by
  rw [← Phrases.leaf_symbol_eq]
  exact reads_leaf (Leaf.single_symbol x) c

theorem reads_symbol_andThen (x : Char) (hq : ∀ c, q.Reads (Phrases.words W) c)
    (hW : W.Nonempty) (c : Cursor) :
    ((symbol [x]).andThen q).Reads (Phrases.words ((x :: ·) '' W)) c := by
  have himage : (x :: ·) '' W = Set.image2 (· ++ ·) {[x]} W := by
    rw [Set.image2_singleton_left]
    rfl
  rw [himage, ← Phrases.words_andThen, ← Phrases.leaf_symbol_eq]
  exact (reads_leaf (Leaf.single_symbol x) c).andThen (fun _ c' _ => hq c')
    (Phrases.endsBefore_leaf (A := Set.univ)) (fun _ _ _ => trivial) (Phrases.uniform_words hW)

theorem reads_upTo_symbol (x : Char) (limit : Nat) (c : Cursor) :
    (upTo limit (symbol [x])).Reads (Phrases.words {w | ∃ n ≤ limit, w = List.replicate n x})
      c := by
  rw [← Phrases.words_upTo, ← Phrases.leaf_symbol_eq]
  exact Reads.upTo (reads_leaf (Leaf.single_symbol x)) Phrases.endsBefore_leaf
    Phrases.neverEmpty_leaf (Phrases.uniform_leaf ⟨x, by simp⟩) limit c

/-- **A choice between texts**, none of the first of which begins one of the second. -/
theorem reads_words_orElse (hr : r.Reads (Phrases.words V) c) (hq : q.Reads (Phrases.words W) c)
    (h : ∀ v ∈ V, ∀ w ∈ W, ¬v <+: w) : (r.orElse q).Reads (Phrases.words (V ∪ W)) c := by
  rw [← Phrases.words_orElse]
  refine hr.orElse hq ?_
  rintro p _ ⟨v, hv, rfl⟩ hb
  rw [Tree.textAll_symbols] at hb
  obtain ⟨w, hw, hvw⟩ := Phrases.begins_words.mp hb
  exact h v hv w hw hvw

end Recognizer

/-! ### The form of a place -/

namespace Place

/-- The three symbols of a place are single characters, no two of them the same. -/
structure Distinct (place : Place) (low mid top : Char) : Prop where
  low_eq : place.low = [low]
  mid_eq : place.mid = [mid]
  top_eq : place.top = [top]
  low_ne_mid : low ≠ mid
  low_ne_top : low ≠ top
  mid_ne_top : mid ≠ top

theorem distinct_hundreds : hundreds.Distinct 'C' 'D' 'M' := by constructor <;> decide

theorem distinct_tens : tens.Distinct 'X' 'L' 'C' := by constructor <;> decide

theorem distinct_ones : ones.Distinct 'I' 'V' 'X' := by constructor <;> decide

/-- **The shape of a digit**: nine and four are a pair, and the others are a number of units, behind
the symbol for five or alone. -/
theorem digit_cases {d : Nat} (hd : d ≤ 9) : d = 9 ∨ (∃ k ≤ 3, d = k + 5) ∨ d = 4 ∨ d ≤ 3 := by
  rcases Nat.lt_or_ge d 5 with h | h
  · omega
  · obtain ⟨k, rfl⟩ := Nat.exists_eq_add_of_le' h
    rcases Nat.lt_or_ge k 4 with hk | hk
    · exact Or.inr (Or.inl ⟨k, by omega, rfl⟩)
    · exact Or.inl (by omega)

theorem digit_eq_replicate (place : Place) {k : Nat} (hk : k ≤ 3) :
    place.digit k = (List.replicate k place.low).flatten ∧
      place.digit (k + 5) = place.mid ++ (List.replicate k place.low).flatten := by
  interval_cases k <;> simp [digit, List.replicate]

/-- The digits of a place from one to nine. -/
def digits (place : Place) : Set (List Char) :=
  {w | ∃ d, 1 ≤ d ∧ d ≤ 9 ∧ w = place.digit d}

/-- **The nine digits, in the order in which the form tries them.** -/
theorem digits_eq {place : Place} {low mid top : Char} (h : place.Distinct low mid top) :
    place.digits = (low :: ·) '' {[top]} ∪
      ((mid :: ·) '' {w | ∃ n ≤ 3, w = List.replicate n low} ∪
        ((low :: ·) '' {[mid]} ∪ (low :: ·) '' {w | ∃ n ≤ 2, w = List.replicate n low})) := by
  have hlow : ∀ n ≤ 2, place.digit (n + 1) = low :: List.replicate n low := by
    intro n hn
    rw [(digit_eq_replicate place (by omega)).1, h.low_eq, List.flatten_replicate_singleton]
    rfl
  have hmid : ∀ n ≤ 3, place.digit (n + 5) = mid :: List.replicate n low := by
    intro n hn
    rw [(digit_eq_replicate place hn).2, h.low_eq, h.mid_eq, List.flatten_replicate_singleton]
    rfl
  have hfour : place.digit 4 = [low, mid] := by simp [digit, h.low_eq, h.mid_eq]
  have hnine : place.digit 9 = [low, top] := by simp [digit, h.low_eq, h.top_eq]
  ext w
  constructor
  · rintro ⟨d, hd₁, hd₉, rfl⟩
    rcases digit_cases hd₉ with rfl | ⟨n, hn, rfl⟩ | rfl | hd
    · exact Or.inl ⟨_, rfl, hnine.symm⟩
    · exact Or.inr (Or.inl ⟨_, ⟨n, hn, rfl⟩, (hmid n hn).symm⟩)
    · exact Or.inr (Or.inr (Or.inl ⟨_, rfl, hfour.symm⟩))
    · obtain ⟨n, rfl⟩ := Nat.exists_eq_add_of_le' hd₁
      exact Or.inr (Or.inr (Or.inr ⟨_, ⟨n, by omega, rfl⟩, (hlow n (by omega)).symm⟩))
  · rintro (⟨_, rfl, rfl⟩ | ⟨_, ⟨n, hn, rfl⟩, rfl⟩ | ⟨_, rfl, rfl⟩ | ⟨_, ⟨n, hn, rfl⟩, rfl⟩)
    · exact ⟨9, by omega, by omega, hnine.symm⟩
    · exact ⟨n + 5, by omega, by omega, (hmid n hn).symm⟩
    · exact ⟨4, by omega, by omega, hfour.symm⟩
    · exact ⟨n + 1, by omega, by omega, (hlow n hn).symm⟩

open Recognizer in
/-- **The form of a place finds its digits.** -/
theorem reads_form {place : Place} {low mid top : Char} (h : place.Distinct low mid top)
    (c : Cursor) : place.form.Reads (Phrases.words place.digits) c := by
  rw [digits_eq h, form, h.low_eq, h.mid_eq, h.top_eq]
  -- a symbol other than `low` is in no repetition of `low`
  have hother : ∀ x n, low ≠ x → ¬[low, x] <+: low :: List.replicate n low := fun x n hx hpre =>
    hx (List.eq_of_mem_replicate (n := n + 1) (hpre.subset (by simp))).symm
  refine reads_words_orElse ?_ (reads_words_orElse ?_ (reads_words_orElse ?_ ?_ ?_) ?_) ?_
  · exact reads_symbol_andThen low (fun c => reads_symbol_words top c) ⟨_, rfl⟩ c
  · exact reads_symbol_andThen mid (fun c => reads_upTo_symbol low 3 c) ⟨[], 0, by simp⟩ c
  · exact reads_symbol_andThen low (fun c => reads_symbol_words mid c) ⟨_, rfl⟩ c
  · exact reads_symbol_andThen low (fun c => reads_upTo_symbol low 2 c) ⟨[], 0, by simp⟩ c
  · rintro _ ⟨_, rfl, rfl⟩ _ ⟨_, ⟨n, _, rfl⟩, rfl⟩
    exact hother mid n h.low_ne_mid
  · rintro _ ⟨_, ⟨_, _, rfl⟩, rfl⟩ _ (⟨_, rfl, rfl⟩ | ⟨_, ⟨_, _, rfl⟩, rfl⟩)
    all_goals exact fun hpre => h.low_ne_mid (List.cons_prefix_cons.mp hpre).1.symm
  · rintro _ ⟨_, rfl, rfl⟩ _ (⟨_, ⟨_, _, rfl⟩, rfl⟩ | ⟨_, rfl, rfl⟩ | ⟨_, ⟨n, _, rfl⟩, rfl⟩)
    · exact fun hpre => h.low_ne_mid (List.cons_prefix_cons.mp hpre).1
    · exact fun hpre => h.mid_ne_top (by simpa [eq_comm] using hpre)
    · exact hother top n h.low_ne_top

end Place

end RomanArithmetic
