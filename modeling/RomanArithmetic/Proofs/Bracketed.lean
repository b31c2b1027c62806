import RomanArithmetic.Proofs.Attempts
import RomanArithmetic.Proofs.Evaluation

/-!
# Brackets around a calculation

A calculation is put between any number of opening and any number of closing brackets
(`RomanArithmetic.bracketed`). With as many of the one as of the other the text is a calculation of
the same value, however deep the brackets are nested; with too many of either kind it cannot be
read, and the failure says where the text goes wrong and what is missing there
(`RomanArithmetic.parse_bracketed`).

The position is that of the longest viable beginning, which can be seen from the brackets: an
opening bracket too many can still be closed, so the whole text is viable, and a closing bracket too
many is where a text stops being viable (`RomanArithmetic.position_eq_of_viable`). What may stand
behind a closing bracket does not depend on what it closes: another closing bracket, if one is open,
or any operator (`RomanArithmetic.viable_bracketed_concat_iff`). Nothing of the levels that are
nested inside is expected there any more.
-/

namespace RomanArithmetic

open RomanArithmetic.Tree (textAll)

/-- A text behind a number of opening brackets and in front of a number of closing ones. -/
def bracketed (opening : Nat) (w : List Char) (closing : Nat) : List Char :=
  List.replicate opening '(' ++ w ++ List.replicate closing ')'

variable {a s t u w text : List Char} {v : Int} {c : Category} {k m : Nat} {x : Char}
  {failure : ParseFailure}

/-! ### Counting the brackets -/

theorem bracketed_succ_succ (k : Nat) (w : List Char) (m : Nat) :
    bracketed (k + 1) w (m + 1) = '(' :: bracketed k w m ++ [')'] := by
  rw [bracketed, List.replicate_succ, List.replicate_succ', bracketed]
  simp

theorem bracketed_concat (k : Nat) (w : List Char) (m : Nat) :
    bracketed k w m ++ [')'] = bracketed k w (m + 1) := by
  rw [bracketed, bracketed, List.replicate_succ', List.append_assoc _ _ [')']]

/-- More closing brackets come behind those that are there. -/
theorem bracketed_append (k : Nat) (w : List Char) (m n : Nat) :
    bracketed k w m ++ List.replicate n ')' = bracketed k w (m + n) := by
  rw [bracketed, bracketed, List.append_assoc, ← List.replicate_add]

/-- More opening brackets come in front of those that are there. -/
theorem replicate_append_bracketed (n k : Nat) (w : List Char) (m : Nat) :
    List.replicate n '(' ++ bracketed k w m = bracketed (n + k) w m := by
  rw [bracketed, bracketed, List.replicate_add]
  simp only [List.append_assoc]

theorem length_bracketed (k : Nat) (w : List Char) (m : Nat) :
    (bracketed k w m).length = k + w.length + m := by
  simp only [bracketed, List.length_append, List.length_replicate]

theorem depth_bracketed (k : Nat) (w : List Char) (m : Nat) :
    depth (bracketed k w m) = k + depth w - m := by
  have hopen : depth (List.replicate k '(') = k := by simp [depth, List.count_replicate]
  have hclose : depth (List.replicate m ')') = -m := by simp [depth, List.count_replicate]
  rw [bracketed, depth_append, depth_append, hopen, hclose]
  omega

/-! ### Derivations between brackets -/

/-- The first character of a text is the one that a sign is seen at, or stands in front of it. -/
theorem eq_or_exists_eq_cons {m t' : List Char} {y : Char} (h : x :: t = m ++ y :: t') :
    y = x ∨ ∃ m', m = x :: m' := by
  rcases List.cons_eq_append_iff.mp h with ⟨-, he⟩ | ⟨m', hm', -⟩
  · exact Or.inl (List.cons.inj he).1
  · exact Or.inr ⟨m', hm'⟩

namespace Derives

/-- **Pairs of brackets change nothing**, however many there are. -/
theorem bracketed (h : Derives .expression w v) (k : Nat) :
    Derives .expression (bracketed k w k) v := by
  induction k with
  | zero => simpa [RomanArithmetic.bracketed] using h
  | succ k ih =>
    rw [bracketed_succ_succ]
    exact ih.brackets.factor.term

theorem factor_bracketed (h : Derives .expression w v) (hk : 1 ≤ k) :
    Derives .factor (RomanArithmetic.bracketed k w k) v := by
  obtain ⟨k, rfl⟩ := Nat.exists_eq_add_of_le' hk
  rw [bracketed_succ_succ]
  exact (h.bracketed k).brackets

/-- Any operator may stand behind a factor, with a one behind it. -/
theorem exists_concat_one (h : Derives .factor w v) (op : Operator) :
    ∃ b, Derives .expression (w ++ op.symbol :: ['I']) b := by
  have hone := Category.exists_derives_one .factor
  cases op with
  | add => exact ⟨_, h.factor.term.add hone.factor⟩
  | sub => exact ⟨_, h.factor.term.sub hone.factor⟩
  | mul => exact ⟨_, (h.factor.mul hone).term⟩

/-- **Behind a closing bracket** there is another one, or an operator. -/
theorem follows_closing (h : Derives c w v) (hw : w = s ++ ')' :: x :: t) :
    x = ')' ∨ ∃ op : Operator, x = op.symbol := by
  induction h using Derives.induction_on_levels generalizing s t with
  | numeral h =>
    exact absurd (h.mem_numeralLetters (x := ')') (by simp [hw])) (by decide)
  | @brackets w _ _ ih =>
    cases s with
    | nil => exact absurd (List.cons.inj hw).1 (by decide)
    | cons y s =>
      have hw : w ++ ')' :: [] = s ++ ')' :: x :: t := (List.cons.inj hw).2
      rcases append_cons_cases hw with ⟨-, -, he⟩ | ⟨m, rfl, hm⟩ | ⟨m, -, he⟩
      · exact absurd he nofun
      · rcases eq_or_exists_eq_cons hm with rfl | ⟨m', rfl⟩
        · exact Or.inl rfl
        · exact ih rfl
      · exact absurd he (by simp)
  | single level _ ih => exact ih hw
  | @concat level op _ _ _ _ _ _ _ ihs iht =>
    rcases append_cons_cases hw with ⟨-, he, -⟩ | ⟨m, rfl, hm⟩ | ⟨m, -, he⟩
    · exact absurd he op.symbol_ne_bracket.2
    · rcases eq_or_exists_eq_cons hm with rfl | ⟨m', rfl⟩
      · exact Or.inr ⟨op, rfl⟩
      · exact ihs rfl
    · exact iht he

end Derives

/-- As many pairs of brackets as there may be change nothing in what a text writes. -/
theorem Writes.bracketed {e : Expr} (h : Writes .expression w e) (k : Nat) :
    Writes .expression (bracketed k w k) e := by
  induction k with
  | zero => simpa [RomanArithmetic.bracketed] using h
  | succ k ih =>
    rw [bracketed_succ_succ]
    exact ih.brackets.of_tightness_le (by decide)

/-! ### Viable texts -/

theorem Viable.exists_derives (h : Viable w) : ∃ rest v, Derives .expression (w ++ rest) v := by
  obtain ⟨rest, hrest⟩ := h
  obtain ⟨v, hv⟩ := hrest.exists_derives
  exact ⟨rest, v, hv⟩

theorem Derives.viable (h : Derives .expression (w ++ t) v) : Viable w :=
  ⟨t, h.accepted⟩

/-- **No bracket is closed that is not open.** -/
theorem depth_pos_of_viable_closing (h : Viable (w ++ [')'])) : 0 < depth w := by
  obtain ⟨rest, v, hv⟩ := h.exists_derives
  obtain ⟨hnonneg, hne⟩ := hv.nested.outside w ')' ⟨rest, rfl⟩
  have hzero : depth w ≠ 0 := fun hd => hne hd (by simp [Category.inner])
  omega

/-- **A failure stands where a viable beginning stops being viable.** -/
theorem position_eq_of_viable (h : parse text = .error failure) (hu : u <+: text)
    (hviable : Viable u) (hstuck : ∀ x, u ++ [x] <+: text → ¬Viable (u ++ [x])) :
    failure.before = u ∧ failure.position = u.length := by
  obtain ⟨rfl, hexp⟩ := explains_of_parse_eq_error h
  have hbefore : failure.before = u := by
    by_contra hne
    have hpre := hexp.reaches.prefix_of_begins (viable_iff.mp hviable) hu
    obtain ⟨x, hx⟩ := exists_concat_prefix hpre (Ne.symm hne)
    exact hstuck x (hx.trans hexp.reaches.isPrefix)
      (viable_iff.mpr (hexp.reaches.begins.of_isPrefix hx))
  refine ⟨hbefore, ?_⟩
  have hlen := congrArg List.length hbefore
  rwa [ParseFailure.before, List.length_take, Nat.min_eq_left hexp.position_le] at hlen

/-! ### Behind the last closing bracket -/

theorem Level.exists_level {P : Level → Prop} :
    (∃ level, P level) ↔ P .additive ∨ P .multiplicative := by
  constructor
  · rintro ⟨level, h⟩
    cases level with
    | additive => exact Or.inl h
    | multiplicative => exact Or.inr h
  · rintro (h | h)
    · exact ⟨_, h⟩
    · exact ⟨_, h⟩

theorem accepted_bracketed_iff (ha : Derives .expression a v) :
    Accepted (bracketed k a m) ↔ k = m := by
  constructor
  · intro h
    obtain ⟨b, hb⟩ := h.exists_derives
    have hdepth := depth_bracketed k a m
    rw [hb.nested.settled, ha.nested.settled] at hdepth
    omega
  · rintro rfl
    exact (ha.bracketed k).accepted

/-- **As long as no bracket is closed that is not open, the text is viable.** -/
theorem viable_bracketed (ha : Derives .expression a v) (h : m ≤ k) :
    Viable (bracketed k a m) := by
  obtain ⟨n, rfl⟩ := Nat.exists_eq_add_of_le h
  refine Derives.viable (t := List.replicate n ')') (v := v) ?_
  rw [bracketed_append]
  exact ha.bracketed _

/-- **What may stand behind the closing brackets**: another one, if a bracket is open, and any
operator. -/
theorem viable_bracketed_concat_iff (ha : Derives .expression a v) (hm : 1 ≤ m) (h : m ≤ k) :
    Viable (bracketed k a m ++ [x]) ↔ (x = ')' ∧ m < k) ∨ ∃ op : Operator, x = op.symbol := by
  constructor
  · intro hx
    obtain ⟨rest, b, hb⟩ := hx.exists_derives
    obtain ⟨n, rfl⟩ := Nat.exists_eq_add_of_le' hm
    have hw : bracketed k a (n + 1) ++ [x] ++ rest = bracketed k a n ++ ')' :: x :: rest := by
      rw [← bracketed_concat]
      simp
    rcases hb.follows_closing hw with rfl | hop
    · have hdepth := depth_pos_of_viable_closing hx
      rw [depth_bracketed, ha.nested.settled] at hdepth
      exact Or.inl ⟨rfl, by omega⟩
    · exact Or.inr hop
  · rintro (⟨rfl, hlt⟩ | ⟨op, rfl⟩)
    · rw [bracketed_concat]
      exact viable_bracketed ha hlt
    · -- the innermost pairs are a factor, and the brackets that are open stand around the operator
      obtain ⟨n, rfl⟩ := Nat.exists_eq_add_of_le' h
      obtain ⟨b, hb⟩ := (ha.factor_bracketed hm).exists_concat_one op
      refine Derives.viable (t := 'I' :: List.replicate n ')') (v := b) ?_
      rw [← replicate_append_bracketed]
      simpa [RomanArithmetic.bracketed] using hb.bracketed n

/-- **The leaves behind the closing brackets** of a text that fails there. -/
theorem mem_leaves_behind_closing (ha : Derives .expression a v)
    (h : parse text = .error failure) (hbefore : failure.before = bracketed k a m) (hm : 1 ≤ m)
    (hmk : m ≤ k) (l : Leaf) : l ∈ failure.leaves ↔
      (l = .endOfText ∧ k = m) ∨ (l = .symbol [')'] ∧ m < k) ∨ ∃ level, l = .operator level := by
  obtain ⟨-, hexp⟩ := explains_of_parse_eq_error h
  have hnext : ∀ x, x ∈ Category.expression.phrases.next 0 failure.before ↔
      (x = ')' ∧ m < k) ∨ ∃ op : Operator, x = op.symbol := fun x => by
    rw [hbefore, ← viable_bracketed_concat_iff ha hm hmk]
    exact viable_iff.symm
  have hno : ∀ x ∈ Category.expression.phrases.next 0 failure.before, x ∉ numeralLetters := by
    intro x hx
    rcases (hnext x).mp hx with ⟨rfl, -⟩ | ⟨op, rfl⟩
    · decide
    · exact op.symbol_notMem_numeralLetters
  rw [hexp.mem_leaves_iff (inGrammar_of_parse_eq_error h) hno, hbefore, ← accepted_iff,
    accepted_bracketed_iff ha]
  refine or_congr_right ?_
  rw [← hbefore]
  constructor
  · rintro ⟨x, hx, rfl⟩
    rcases (hnext x).mp hx with ⟨rfl, hlt⟩ | ⟨op, rfl⟩
    · exact Or.inl ⟨rfl, hlt⟩
    · exact Or.inr (by cases op <;> exact ⟨_, rfl⟩)
  · rintro (⟨rfl, hlt⟩ | ⟨level, rfl⟩)
    · exact ⟨')', (hnext _).mpr (Or.inl ⟨rfl, hlt⟩), rfl⟩
    · cases level with
      | additive => exact ⟨'+', (hnext _).mpr (Or.inr ⟨.add, rfl⟩), rfl⟩
      | multiplicative => exact ⟨'*', (hnext _).mpr (Or.inr ⟨.mul, rfl⟩), rfl⟩

theorem exists_failure_of_ne (ha : Derives .expression a v) (hne : k ≠ m) :
    ∃ failure, parse (bracketed k a m) = .error failure := by
  cases hparse : parse (bracketed k a m) with
  | error failure => exact ⟨failure, rfl⟩
  | ok tree => exact absurd ((accepted_bracketed_iff ha).mp ⟨tree, hparse⟩) hne

/-- **With too many opening brackets** the text fails at its end. -/
theorem exists_failure_of_lt (ha : Derives .expression a v) (hlt : m < k) :
    ∃ failure, parse (bracketed k a m) = .error failure ∧
      failure.position = (bracketed k a m).length ∧
        (1 ≤ m → failure.expected = [")", "\x5c*", "\x5c+|\x5c-"]) := by
  obtain ⟨failure, hparse⟩ := exists_failure_of_ne ha hlt.ne'
  obtain ⟨hbefore, hposition⟩ := position_eq_of_viable hparse List.prefix_rfl
    (viable_bracketed ha hlt.le) fun x hx => absurd hx not_concat_prefix
  refine ⟨failure, hparse, hposition, fun hm => ?_⟩
  have hleaves : ∀ l, l ∈ failure.leaves ↔
      l ∈ [.symbol [')'], .operator .additive, .operator .multiplicative] := by
    intro l
    rw [mem_leaves_behind_closing ha hparse hbefore hm hlt.le]
    simp [hlt, hlt.ne', Level.exists_level]
  exact (ParseFailure.expected_eq_of_mem_iff hleaves).trans (by decide)

/-- **With too many closing brackets** the text fails at the first that closes nothing. -/
theorem exists_failure_of_gt (ha : Derives .expression a v) (hlt : k < m) :
    ∃ failure, parse (bracketed k a m) = .error failure ∧
      failure.position = 2 * k + a.length ∧
        (1 ≤ k → failure.expected = ["EOF", "\x5c*", "\x5c+|\x5c-"]) := by
  obtain ⟨failure, hparse⟩ := exists_failure_of_ne ha hlt.ne
  obtain ⟨n, rfl⟩ := Nat.exists_eq_add_of_lt hlt
  have hpre : bracketed k a k ++ List.replicate (n + 1) ')' = bracketed k a (k + n + 1) :=
    bracketed_append k a k (n + 1)
  have hstuck : ∀ x, bracketed k a k ++ [x] <+: bracketed k a (k + n + 1) →
      ¬Viable (bracketed k a k ++ [x]) := by
    intro x hx hviable
    rw [← hpre, List.prefix_append_right_inj, List.replicate_succ, List.cons_prefix_cons] at hx
    obtain ⟨rfl, -⟩ := hx
    have hdepth := depth_pos_of_viable_closing hviable
    rw [depth_bracketed, ha.nested.settled] at hdepth
    omega
  obtain ⟨hbefore, hposition⟩ := position_eq_of_viable hparse ⟨_, hpre⟩
    (viable_bracketed ha le_rfl) hstuck
  refine ⟨failure, hparse, by rw [hposition, length_bracketed]; omega, fun hk => ?_⟩
  have hleaves : ∀ l, l ∈ failure.leaves ↔
      l ∈ [.endOfText, .operator .additive, .operator .multiplicative] := by
    intro l
    rw [mem_leaves_behind_closing ha hparse hbefore hk le_rfl]
    simp [Level.exists_level]
  exact (ParseFailure.expected_eq_of_mem_iff hleaves).trans (by decide)

/-! ### Any number of brackets -/

/-- **Brackets around a calculation** are handled exactly at every depth. With as many closing as
opening brackets the text comes to the value of the calculation, and under every limit on written
numbers the answer is the one for the calculation. With too many opening brackets the text
fails at its end, where behind a closing bracket nothing but another one or an operator is missing.
With too many closing brackets it fails at the first one that closes nothing, where behind another
one the text could have ended or gone on with an operator. -/
theorem parse_bracketed (ha : Accepted a) (k m : Nat) :
    (k = m → Accepted (bracketed k a m) ∧
      (∃ v, ComesTo a v ∧ ComesTo (bracketed k a m) v) ∧
      ∀ limit, evaluateText limit (bracketed k a m) = evaluateText limit a) ∧
    (m < k → ∃ failure, parse (bracketed k a m) = .error failure ∧
      failure.position = (bracketed k a m).length ∧
        (1 ≤ m → failure.expected = [")", "\x5c*", "\x5c+|\x5c-"])) ∧
    (k < m → ∃ failure, parse (bracketed k a m) = .error failure ∧
      failure.position = 2 * k + a.length ∧
        (1 ≤ k → failure.expected = ["EOF", "\x5c*", "\x5c+|\x5c-"])) := by
  obtain ⟨e, he⟩ := ha.exists_writes
  refine ⟨?_, exists_failure_of_lt he.derives, exists_failure_of_gt he.derives⟩
  rintro rfl
  have hb := he.bracketed k
  exact ⟨hb.accepted, ⟨e.value, he.comesTo, hb.comesTo⟩, hb.evaluateText_congr he⟩

/-- A sum in two pairs of brackets, and with one of the four brackets left out. -/
theorem parse_bracketed_sum :
    let a := ['X', '+', 'I']
    Accepted a ∧ evaluateText .standard (bracketed 2 a 2) = .ok 11 ∧
      (∃ failure, parse (bracketed 2 a 1) = .error failure ∧ failure.position = 6 ∧
        failure.expected = [")", "\x5c*", "\x5c+|\x5c-"]) ∧
      ∃ failure, parse (bracketed 1 a 2) = .error failure ∧ failure.position = 5 ∧
        failure.expected = ["EOF", "\x5c*", "\x5c+|\x5c-"] := by
  intro a
  have ha : Accepted a := ⟨_, rfl⟩
  obtain ⟨-, -, hsame⟩ := (parse_bracketed ha 2 2).1 rfl
  have hvalue : evaluateText .standard a = .ok 11 := by decide +kernel
  obtain ⟨f, hf, hposition, hexpected⟩ := (parse_bracketed ha 2 1).2.1 (by decide)
  obtain ⟨g, hg, hposition', hexpected'⟩ := (parse_bracketed ha 1 2).2.2 (by decide)
  exact ⟨ha, (hsame .standard).trans hvalue, ⟨f, hf, hposition, hexpected (by decide)⟩,
    g, hg, hposition', hexpected' (by decide)⟩

end RomanArithmetic
