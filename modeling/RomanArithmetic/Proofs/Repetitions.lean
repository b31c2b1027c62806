import RomanArithmetic.Proofs.WholeTexts
import Mathlib.Order.Bounds.Basic

/-!
# Bounded repetitions of a symbol

A bounded repetition is put together from possibilities inside each other: the symbol, and behind it
the same with a bound that is less by one. What this comes to is a count. As many copies of the
symbol are taken as the text begins with, but not more than the bound
(`RomanArithmetic.Recognizer.upTo_symbol`), so that a text can be counted exactly if it consists of
copies, of at most as many as the bound (`RomanArithmetic.countRepetitions_cases`).

The symbol is any text that is not empty. It may overlap with itself, as *aba* does in *ababa*, and
still no other way to take copies from the text would be better, for each copy begins where the one
before it ends. So a text is a row of copies and a rest that does not begin with another one
(`RomanArithmetic.exists_copies_append`), and the number of copies in the row is the greatest that
the text begins with (`RomanArithmetic.isGreatest_copies`).

What is recorded depends on why the repetition ends. If there is no further copy, the symbol has
failed behind the row. If the bound is reached, nothing has failed yet, and that the text goes on is
noticed by the end of the text only. Both are at the same place.
-/

namespace RomanArithmetic

variable {s text rest : List Char} {limit r k p : Nat}

/-! ### Rows of copies -/

/-- A symbol so many times. -/
def copies (s : List Char) (k : Nat) : List Char :=
  (List.replicate k s).flatten

@[simp] theorem copies_zero (s : List Char) : copies s 0 = [] := rfl

theorem copies_succ (s : List Char) (k : Nat) : copies s (k + 1) = s ++ copies s k := by
  rw [copies, copies, List.replicate_succ, List.flatten_cons]

theorem copies_add (s : List Char) (j k : Nat) : copies s (j + k) = copies s j ++ copies s k := by
  rw [copies, copies, copies, ← List.flatten_append, List.replicate_append_replicate]

@[simp] theorem length_copies (s : List Char) (k : Nat) : (copies s k).length = s.length * k := by
  simp [copies, Nat.mul_comm]

/-- **A text is a row of copies and a rest** that does not begin with another one. -/
theorem exists_copies_append (hs : s ≠ []) (text : List Char) :
    ∃ r rest, text = copies s r ++ rest ∧ ¬s <+: rest := by
  by_cases h : s <+: text
  · obtain ⟨behind, rfl⟩ := h
    have hlt : behind.length < (s ++ behind).length := by
      simpa using List.length_pos_iff.mpr hs
    obtain ⟨r, rest, rfl, hrest⟩ := exists_copies_append hs behind
    exact ⟨r + 1, rest, by rw [copies_succ, List.append_assoc], hrest⟩
  · exact ⟨0, text, rfl, h⟩
termination_by text.length

/-- **The row is the longest one** that the text begins with. -/
theorem isGreatest_copies (h : ¬s <+: rest) (r : Nat) :
    IsGreatest {k | copies s k <+: copies s r ++ rest} r := by
  refine ⟨List.prefix_append _ _, fun k hk => Nat.le_of_not_lt fun hlt => h ?_⟩
  obtain ⟨j, rfl⟩ := Nat.exists_eq_add_of_lt hlt
  rw [Set.mem_ofPred_eq, Nat.add_assoc, copies_add, List.prefix_append_right_inj, copies_succ] at hk
  exact (List.prefix_append s _).trans hk

theorem drop_copies_append (s rest : List Char) (limit r : Nat) :
    (copies s r ++ rest).drop (s.length * min limit r) = copies s (r - limit) ++ rest := by
  have hsplit : copies s r = copies s (min limit r) ++ copies s (r - limit) := by
    rw [← copies_add]
    congr 1
    omega
  rw [hsplit, List.append_assoc, ← length_copies, List.drop_left]

/-- A row of copies is its own longest row. -/
theorem eq_of_copies_append_eq (hs : s ≠ []) (h : ¬s <+: rest)
    (he : copies s r ++ rest = copies s k) : k = r ∧ rest = [] := by
  have hkr : k ≤ r := (isGreatest_copies h r).2 ⟨[], by rw [he, List.append_nil]⟩
  have hlen : s.length * r + rest.length = s.length * k := by
    rw [← length_copies s r, ← List.length_append, he, length_copies]
  have hrk : r ≤ k := Nat.le_of_mul_le_mul_left (by omega) (List.length_pos_iff.mpr hs)
  obtain rfl : k = r := Nat.le_antisymm hkr hrk
  exact ⟨rfl, List.length_eq_zero_iff.mp (by omega)⟩

/-! ### Taking copies -/

/-- A leaf for each copy of a symbol, from a position on. -/
def Tree.copies (s : List Char) : Nat → Nat → List Tree
  | _, 0 => []
  | p, k + 1 => .leaf (.symbol s) p s :: copies s (p + s.length) k

theorem Tree.countP_isSymbol_copies (s : List Char) (p k : Nat) :
    (Tree.copies s p k).countP Tree.isSymbol = k := by
  induction k generalizing p with
  | zero => rfl
  | succ k ih => rw [copies, List.countP_cons_of_pos rfl, ih]

namespace Recognizer

theorem symbol_append (s : List Char) (p : Nat) (rest : List Char) :
    symbol s ⟨p, s ++ rest⟩ =
      ⟨some ([.leaf (.symbol s) p s], ⟨p + s.length, rest⟩), .none⟩ := by
  have htake : (Leaf.symbol s).take? (s ++ rest) = some (s, rest) := by
    rw [Leaf.take?, dropSymbol?_eq_some_iff.mpr rfl, Option.map_some]
  rw [symbol, leaf]
  simp only [htake]

theorem symbol_of_not_isPrefix (h : ¬s <+: rest) (p : Nat) :
    symbol s ⟨p, rest⟩ = ⟨none, .failed (.symbol s) p⟩ := by
  refine leaf_of_take?_eq_none ?_
  rw [Leaf.take?, Option.map_eq_none_iff, Option.eq_none_iff_forall_ne_some]
  exact fun behind hdrop => h ⟨behind, (dropSymbol?_eq_some_iff.mp hdrop).symm⟩

theorem upTo_succ (limit : Nat) (q : Recognizer) :
    upTo (limit + 1) q = (q.andThen (upTo limit q)).orElse empty := rfl

/-- **A bounded repetition takes the copies that there are**, up to its bound, and it finds
something everywhere. The symbol has failed if the copies came to an end before the bound. -/
theorem upTo_symbol (h : ¬s <+: rest) (limit r p : Nat) :
    upTo limit (symbol s) ⟨p, copies s r ++ rest⟩ =
      ⟨some (Tree.copies s p (min limit r),
          ⟨p + s.length * min limit r, copies s (r - limit) ++ rest⟩),
        if r < limit then .failed (.symbol s) (p + s.length * r) else .none⟩ := by
  induction limit generalizing r p with
  | zero => simp [upTo, empty, Tree.copies]
  | succ limit ih =>
    cases r with
    | zero =>
      -- where no copy stands, the possibilities further inside are not even tried
      have hnone : ((symbol s).andThen (upTo limit (symbol s))) ⟨p, rest⟩ =
          ⟨none, .failed (.symbol s) p⟩ := by
        rw [andThen_of_none (by rw [symbol_of_not_isPrefix h]), symbol_of_not_isPrefix h]
      rw [upTo_succ, copies_zero, List.nil_append, orElse_of_none (by rw [hnone]), hnone]
      simp [empty, Tree.copies]
    | succ r =>
      -- the copies behind the first one are those of a repetition with a bound less by one
      have hbehind := ih r (p + s.length)
      have hsome : ((symbol s).andThen (upTo limit (symbol s))) ⟨p, s ++ (copies s r ++ rest)⟩ =
          ⟨some (.leaf (.symbol s) p s :: Tree.copies s (p + s.length) (min limit r),
              ⟨p + s.length + s.length * min limit r, copies s (r - limit) ++ rest⟩),
            if r < limit then .failed (.symbol s) (p + s.length + s.length * r) else .none⟩ := by
        rw [andThen_of_some (by rw [symbol_append]), symbol_append, hbehind, Furthest.none_merge]
        rfl
      rw [upTo_succ, copies_succ, List.append_assoc, orElse_of_some (by rw [hsome]), hsome]
      simp only [Nat.succ_min_succ, Tree.copies, Nat.add_sub_add_right, Nat.mul_succ,
        Nat.add_lt_add_iff_right, Nat.add_assoc, Nat.add_comm s.length]

/-! ### Counting a whole text -/

/-- **A text that consists of copies is read as a whole**, if the bound allows for all of them. -/
theorem whole_upTo_symbol (hs : s ≠ []) (hr : r ≤ limit) :
    (upTo limit (symbol s)).whole (copies s r) =
      .ok (Tree.copies s 0 r ++ [.leaf .endOfText (s.length * r) []]) := by
  have hrest : ¬s <+: [] := fun hpre => hs (List.prefix_nil.mp hpre)
  have hrun := upTo_symbol hrest limit r 0
  rw [List.append_nil, List.append_nil, Nat.sub_eq_zero_of_le hr, copies_zero,
    Nat.min_eq_right hr, Nat.zero_add] at hrun
  exact whole_of_some_nil (by rw [hrun])

/-- **A text that goes on fails behind the copies that were taken.** What could have stood there is
the end of the text, and another copy if the bound allows for it. -/
theorem whole_upTo_symbol_eq_error (h : ¬s <+: rest) (hne : copies s (r - limit) ++ rest ≠ []) :
    (upTo limit (symbol s)).whole (copies s r ++ rest) =
      .error ⟨copies s r ++ rest, s.length * min limit r,
        if r < limit then [.symbol s, .endOfText] else [.endOfText]⟩ := by
  have hrun := upTo_symbol h limit r 0
  obtain ⟨x, behind, hx⟩ := List.exists_cons_of_ne_nil hne
  rw [hx] at hrun
  rw [whole_of_some_cons (by rw [hrun]), hrun]
  by_cases hr : r < limit
  · simp [hr, Nat.min_eq_right hr.le, Furthest.merge, Furthest.failed]
  · simp [hr, Furthest.failed]

end Recognizer

open Recognizer

theorem countRepetitions_copies (hlimit : 1 ≤ limit) (hs : s ≠ []) (hr : r ≤ limit) :
    countRepetitions limit s (copies s r) = .ok r := by
  rw [countRepetitions, if_neg (by omega), Int.toNat_natCast, whole_upTo_symbol hs hr]
  simp [Tree.countP_isSymbol_copies, Tree.isSymbol]

theorem countRepetitions_of_error (hlimit : 1 ≤ limit) {failure : ParseFailure}
    (h : (upTo limit (symbol s)).whole text = .error failure) :
    countRepetitions limit s text = .error (.text failure) := by
  rw [countRepetitions, if_neg (by omega), Int.toNat_natCast, h]

/-- Nothing is left over exactly if the text consists of copies, not more than the bound. -/
theorem copies_append_eq_iff (hs : s ≠ []) (h : ¬s <+: rest) :
    (k ≤ limit ∧ copies s r ++ rest = copies s k) ↔
      k = r ∧ copies s (r - limit) ++ rest = [] := by
  constructor
  · rintro ⟨hk, he⟩
    obtain ⟨rfl, rfl⟩ := eq_of_copies_append_eq hs h he
    rw [Nat.sub_eq_zero_of_le hk]
    exact ⟨rfl, rfl⟩
  · rintro ⟨rfl, he⟩
    obtain ⟨hcopies, rfl⟩ := List.append_eq_nil_iff.mp he
    have hlen : s.length * (k - limit) = 0 := by rw [← length_copies, hcopies, List.length_nil]
    have hzero : k - limit = 0 :=
      (Nat.mul_eq_zero.mp hlen).resolve_left fun hs' => hs (List.length_eq_zero_iff.mp hs')
    exact ⟨Nat.le_of_sub_eq_zero hzero, List.append_nil _⟩

/-- **A bounded repetition counts the copies of a symbol.** Let `r` be the greatest number of copies
that a text begins with. The repetition takes the lesser of `r` and the bound, wherever the text
stands, and finds something always. The text is read as a whole exactly if it consists of copies,
not more than the bound, and the count is then their number. Any other text fails behind the copies
that were taken. -/
theorem countRepetitions_cases (hlimit : 1 ≤ limit) (hs : s ≠ []) (text : List Char) :
    ∃ r, IsGreatest {k | copies s k <+: text} r ∧
      (∀ p, (upTo limit (symbol s) ⟨p, text⟩).found = some (Tree.copies s p (min limit r),
        ⟨p + s.length * min limit r, text.drop (s.length * min limit r)⟩)) ∧
      ((∃ trees, (upTo limit (symbol s)).whole text = .ok trees) ↔
        ∃ k ≤ limit, text = copies s k) ∧
      (∀ k, countRepetitions limit s text = .ok k ↔ k ≤ limit ∧ text = copies s k) ∧
      ((∀ k ≤ limit, text ≠ copies s k) → ∃ failure,
        (upTo limit (symbol s)).whole text = .error failure ∧
        countRepetitions limit s text = .error (.text failure) ∧
        failure.position = s.length * min limit r) := by
  obtain ⟨r, rest, rfl, hrest⟩ := exists_copies_append hs text
  have hcopies : ∀ k, (k ≤ limit ∧ copies s r ++ rest = copies s k) ↔
      k = r ∧ copies s (r - limit) ++ rest = [] := fun _ => copies_append_eq_iff hs hrest
  refine ⟨r, isGreatest_copies hrest r, fun p => by rw [upTo_symbol hrest, drop_copies_append], ?_⟩
  by_cases hend : copies s (r - limit) ++ rest = []
  · obtain ⟨hr, htext⟩ := (hcopies r).mpr ⟨rfl, hend⟩
    have hok := whole_upTo_symbol hs hr
    have hcount := countRepetitions_copies hlimit hs hr
    rw [← htext] at hok hcount
    refine ⟨iff_of_true ⟨_, hok⟩ ⟨r, hr, htext⟩, fun k => ?_, fun hno => absurd htext (hno r hr)⟩
    rw [hcount, hcopies, Except.ok.injEq, eq_comm, and_iff_left hend]
  · have herror := whole_upTo_symbol_eq_error hrest hend
    have hcount := countRepetitions_of_error hlimit herror
    have hno : ∀ k, ¬(k ≤ limit ∧ copies s r ++ rest = copies s k) := fun k hk =>
      hend ((hcopies k).mp hk).2
    refine ⟨iff_of_false ?_ fun ⟨k, hk⟩ => hno k hk, fun k => iff_of_false ?_ (hno k),
      fun _ => ⟨_, herror, hcount, rfl⟩⟩
    · rintro ⟨trees, hok⟩
      exact absurd (hok.symm.trans herror) (by simp)
    · rw [hcount]
      simp

/-- *aba* overlaps with itself, but *ababa* begins with one copy only, and what follows it is no
other one. -/
theorem countRepetitions_cases_overlapping :
    let s := ['a', 'b', 'a']
    (1 ≤ 2 ∧ s ≠ []) ∧ countRepetitions 2 s ['a', 'b', 'a', 'a', 'b', 'a'] = .ok 2 ∧
      ∃ failure, countRepetitions 2 s ['a', 'b', 'a', 'b', 'a'] = .error (.text failure) ∧
        failure.position = 3 := by
  intro s
  have hlimit : 1 ≤ 2 := by decide
  have hs : s ≠ [] := by decide
  obtain ⟨-, -, -, -, hcount, -⟩ :=
    countRepetitions_cases hlimit hs ['a', 'b', 'a', 'a', 'b', 'a']
  obtain ⟨r, hr, -, -, -, hfails⟩ :=
    countRepetitions_cases hlimit hs ['a', 'b', 'a', 'b', 'a']
  obtain ⟨failure, -, hfailure, hposition⟩ := hfails (by decide)
  have hone : copies s 1 <+: ['a', 'b', 'a', 'b', 'a'] := by decide
  have hge : 1 ≤ r := hr.2 hone
  have hle : 3 * r ≤ 5 := length_copies s r ▸ hr.1.length_le
  obtain rfl : r = 1 := by omega
  exact ⟨⟨hlimit, hs⟩, (hcount 2).mpr ⟨by decide, rfl⟩, failure, hfailure, hposition⟩

end RomanArithmetic
