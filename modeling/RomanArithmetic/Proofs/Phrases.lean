import RomanArithmetic.Language
import Mathlib.Data.Set.Lattice

/-!
# Kinds of phrases

A recognizer says what it finds in *one* text, and how it goes about it. To say what it is *looking
for*, independently of any text and of any order of attempts, we use kinds of phrases:
`RomanArithmetic.Phrases` is a set of lists of neighbouring trees, for every position that the first
of them may begin at. Kinds of phrases are put together by the same combinations as recognizers –
sequence, choice, repetition, rule – but here a choice has no order, nothing is greedy and nothing
fails: `RomanArithmetic.Phrases.orElse` is the union.

## What a text can become

What a failed recognition is measured against are not the phrases themselves but their beginnings:
`RomanArithmetic.Phrases.Begins S p u` says that `u` is the beginning of the text of some phrase of
kind `S`, and `RomanArithmetic.Phrases.next S p u` is the set of the characters with which `u` can
be continued to a longer beginning. The lemmas of this file compute beginnings and continuations for
each combination.

## Phrases that can be told apart

Reading from left to right finds the right division of a text into two phrases only if it is clear
where the first ends. `RomanArithmetic.Phrases.EndsBefore S A` is the condition on the first: a
complete phrase of kind `S` cannot be continued by a character of `A`. Together with
`RomanArithmetic.Phrases.StartsIn T A` for the second it leaves a single possibility for the border
between the two (`RomanArithmetic.Phrases.next_andThen`).
-/

namespace RomanArithmetic

open RomanArithmetic.Tree (textAll)

/-! ### Beginnings of lists -/

section Prefix

variable {α : Type} {s t u v : List α} {x : α}

/-- A beginning of two lists in a row ends in the first or in the second of them. -/
theorem prefix_append_iff : u <+: s ++ t ↔ u <+: s ∨ ∃ v, u = s ++ v ∧ v <+: t := by
  constructor
  · intro h
    rcases List.prefix_or_prefix_of_prefix h (List.prefix_append s t) with hu | ⟨v, rfl⟩
    · exact Or.inl hu
    · exact Or.inr ⟨v, rfl, (List.prefix_append_right_inj s).mp h⟩
  · rintro (hu | ⟨v, rfl, hv⟩)
    · exact hu.trans (List.prefix_append s t)
    · exact (List.prefix_append_right_inj s).mpr hv

/-- **Two ways to cut a list in front of an element** are one and the same, or one cuts what comes
behind the other. -/
theorem append_cons_cases {y : α} (h : s ++ x :: t = u ++ y :: v) :
    (s = u ∧ x = y ∧ t = v) ∨ (∃ m, s = u ++ y :: m ∧ v = m ++ x :: t) ∨
      ∃ m, u = s ++ x :: m ∧ t = m ++ y :: v := by
  rcases List.append_eq_append_iff.mp h with ⟨m, rfl, hm⟩ | ⟨m, rfl, hm⟩
  · cases m with
    | nil => exact Or.inl (by simpa using hm)
    | cons z m =>
      obtain ⟨rfl, rfl⟩ : x = z ∧ t = m ++ y :: v := by simpa using hm
      exact Or.inr (Or.inr ⟨m, rfl, rfl⟩)
  · cases m with
    | nil => exact Or.inl (by simpa [eq_comm] using hm)
    | cons z m =>
      obtain ⟨rfl, rfl⟩ : y = z ∧ v = m ++ x :: t := by simpa using hm
      exact Or.inr (Or.inl ⟨m, rfl, rfl⟩)

/-- A proper beginning can be continued by one more element. -/
theorem exists_concat_prefix (h : u <+: v) (hne : u ≠ v) : ∃ x, u ++ [x] <+: v := by
  obtain ⟨w, rfl⟩ := h
  cases w with
  | nil => exact absurd (List.append_nil u).symm hne
  | cons x w => exact ⟨x, w, by simp⟩

theorem not_concat_prefix : ¬u ++ [x] <+: u := by
  intro h
  have hlen := h.length_le
  rw [List.length_append, List.length_singleton] at hlen
  omega

end Prefix

/-! ### Combinations -/

/-- **A kind of phrases**: which lists of neighbouring trees are phrases of this kind, when the
first of them begins at a position. -/
abbrev Phrases :=
  Nat → List Tree → Prop

namespace Phrases

/-- The phrase of no trees. -/
def empty : Phrases := fun _ ts => ts = []

/-- A leaf that is one character long. -/
def leaf (leaf : Leaf) : Phrases := fun p ts => ∃ x, leaf.Matches x ∧ ts = [.leaf leaf p [x]]

/-- A phrase of one kind behind a phrase of another kind. -/
def andThen (S T : Phrases) : Phrases := fun p ts =>
  ∃ ss us, S p ss ∧ T (p + (textAll ss).length) us ∧ ts = ss ++ us

/-- A phrase of one of two kinds. -/
def orElse (S T : Phrases) : Phrases := fun p ts => S p ts ∨ T p ts

/-- A phrase that may be missing. -/
def optional (S : Phrases) : Phrases := S.orElse empty

/-- At most a number of phrases in a row. -/
def upTo : Nat → Phrases → Phrases
  | 0, _ => empty
  | limit + 1, S => (S.andThen (upTo limit S)).optional

/-- Any number of phrases in a row. -/
inductive many (S : Phrases) : Phrases
  /-- None at all. -/
  | nil {p : Nat} : many S p []
  /-- One in front of others. -/
  | cons {p : Nat} {ss ts : List Tree} :
      S p ss → many S (p + (textAll ss).length) ts → many S p (ss ++ ts)

/-- Phrases under a node of a rule. -/
def rule (rule : Rule) (S : Phrases) : Phrases := fun p ts =>
  ∃ ss, S p ss ∧ ts = [.node rule p (p + (textAll ss).length) ss]

/-- The phrases that are not empty. -/
def nonempty (S : Phrases) : Phrases := fun p ts => S p ts ∧ textAll ts ≠ []

variable {S T : Phrases} {p q : Nat} {ts us : List Tree}

/-- **A repetition is a single phrase and a repetition, or nothing.** -/
theorem many_eq (S : Phrases) : S.many = (S.andThen S.many).optional := by
  funext p ts
  refine propext ⟨?_, ?_⟩
  · intro h
    cases h with
    | nil => exact Or.inr rfl
    | cons hs ht => exact Or.inl ⟨_, _, hs, ht, rfl⟩
  · rintro (⟨ss, us, hs, ht, rfl⟩ | h)
    · exact .cons hs ht
    · obtain rfl : ts = [] := h
      exact .nil

/-- **A repetition grows at its end as well.** -/
theorem many.concat (h : S.many p ts) (hu : S (p + (textAll ts).length) us) :
    S.many p (ts ++ us) := by
  induction h with
  | nil => simpa using many.cons hu .nil
  | @cons p ss ts hs _ ih =>
    rw [List.append_assoc]
    refine .cons hs (ih ?_)
    rwa [Tree.textAll_append, List.length_append, ← Nat.add_assoc] at hu

/-- **What a repetition is attached to**: a property of trees in front of it that each single phrase
keeps is kept by the whole. -/
theorem many.attach {P : Nat → List Tree → Prop}
    (step : ∀ {q row us}, P q row → S q us → P (q + (textAll us).length) (row ++ us))
    (h : S.many p ts) {row : List Tree} (hrow : P p row) :
    P (p + (textAll ts).length) (row ++ ts) := by
  induction h generalizing row with
  | nil => simpa using hrow
  | @cons p ss ts hs _ ih =>
    have := ih (step hrow hs)
    rwa [List.append_assoc, Nat.add_assoc, ← List.length_append, ← Tree.textAll_append] at this

/-! ### Beginnings and continuations -/

/-- **A beginning**: the text can be completed to the text of a phrase. -/
def Begins (S : Phrases) (p : Nat) (u : List Char) : Prop :=
  ∃ ts, S p ts ∧ u <+: textAll ts

/-- The characters that continue a beginning to a longer one. -/
def next (S : Phrases) (p : Nat) (u : List Char) : Set Char :=
  {x | S.Begins p (u ++ [x])}

variable {u v w : List Char} {x : Char}

theorem Begins.of_isPrefix (h : S.Begins p v) (hu : u <+: v) : S.Begins p u := by
  obtain ⟨ts, hts, hv⟩ := h
  exact ⟨ts, hts, hu.trans hv⟩

theorem begins_textAll (h : S p ts) : S.Begins p (textAll ts) :=
  ⟨ts, h, List.prefix_rfl⟩

theorem begins_nil (h : S p ts) : S.Begins p [] :=
  ⟨ts, h, List.nil_prefix⟩

@[simp] theorem begins_empty : empty.Begins p u ↔ u = [] := by
  simp [Begins, empty]

theorem begins_leaf {leaf : Leaf} :
    (Phrases.leaf leaf).Begins p u ↔ ∃ x, leaf.Matches x ∧ u <+: [x] := by
  constructor
  · rintro ⟨_, ⟨x, hx, rfl⟩, hu⟩
    exact ⟨x, hx, by simpa using hu⟩
  · rintro ⟨x, hx, hu⟩
    exact ⟨_, ⟨x, hx, rfl⟩, by simpa using hu⟩

/-- Behind the character of a leaf there is a beginning of the other phrase. -/
theorem begins_leaf_andThen {leaf : Leaf} : ((Phrases.leaf leaf).andThen T).Begins p (x :: u) ↔
    leaf.Matches x ∧ T.Begins (p + 1) u := by
  constructor
  · rintro ⟨_, ⟨_, us, ⟨y, hy, rfl⟩, hu, rfl⟩, hpre⟩
    obtain ⟨rfl, hu'⟩ : x = y ∧ u <+: textAll us := by simpa using hpre
    exact ⟨hy, us, by simpa using hu, hu'⟩
  · rintro ⟨hx, us, hu, hpre⟩
    refine ⟨_, ⟨_, us, ⟨x, hx, rfl⟩, by simpa using hu, rfl⟩, ?_⟩
    simpa using hpre

theorem begins_orElse : (S.orElse T).Begins p u ↔ S.Begins p u ∨ T.Begins p u := by
  constructor
  · rintro ⟨ts, h | h, hu⟩
    · exact Or.inl ⟨ts, h, hu⟩
    · exact Or.inr ⟨ts, h, hu⟩
  · rintro (⟨ts, h, hu⟩ | ⟨ts, h, hu⟩)
    · exact ⟨ts, Or.inl h, hu⟩
    · exact ⟨ts, Or.inr h, hu⟩

theorem begins_rule {rule : Rule} : (S.rule rule).Begins p u ↔ S.Begins p u := by
  constructor
  · rintro ⟨_, ⟨ss, hs, rfl⟩, hu⟩
    exact ⟨ss, hs, by simpa using hu⟩
  · rintro ⟨ss, hs, hu⟩
    exact ⟨_, ⟨ss, hs, rfl⟩, by simpa using hu⟩

theorem next_orElse : (S.orElse T).next p u = S.next p u ∪ T.next p u :=
  Set.ext fun _ => begins_orElse

theorem next_rule {rule : Rule} : (S.rule rule).next p u = S.next p u :=
  Set.ext fun _ => begins_rule

theorem begins_nonempty (hu : u ≠ []) : S.nonempty.Begins p u ↔ S.Begins p u := by
  constructor
  · rintro ⟨ts, ⟨hts, -⟩, h⟩
    exact ⟨ts, hts, h⟩
  · rintro ⟨ts, hts, h⟩
    exact ⟨ts, ⟨hts, fun hnil => hu (List.prefix_nil.mp (hnil ▸ h))⟩, h⟩

theorem next_nonempty : S.nonempty.next p u = S.next p u :=
  Set.ext fun _ => begins_nonempty (by simp)

theorem next_empty : empty.next p u = ∅ := by
  ext x
  simp [next]

/-! ### The same texts at every position -/

/-- **Positions do not matter**: there are phrases wherever they begin, and their texts are
everywhere the same. -/
structure Uniform (S : Phrases) : Prop where
  exists_phrase : ∀ p, ∃ ts, S p ts
  transfer : ∀ p q ts, S p ts → ∃ us, S q us ∧ textAll us = textAll ts

theorem uniform_empty : empty.Uniform where
  exists_phrase _ := ⟨[], rfl⟩
  transfer _ _ _ h := ⟨_, h, rfl⟩

theorem uniform_leaf {leaf : Leaf} (h : ∃ x, leaf.Matches x) : (Phrases.leaf leaf).Uniform where
  exists_phrase p := by
    obtain ⟨x, hx⟩ := h
    exact ⟨_, x, hx, rfl⟩
  transfer := by
    rintro p q _ ⟨x, hx, rfl⟩
    exact ⟨_, ⟨x, hx, rfl⟩, by simp⟩

theorem Uniform.andThen (hS : S.Uniform) (hT : T.Uniform) : (S.andThen T).Uniform where
  exists_phrase p := by
    obtain ⟨ss, hs⟩ := hS.exists_phrase p
    obtain ⟨us, hu⟩ := hT.exists_phrase (p + (textAll ss).length)
    exact ⟨ss ++ us, ss, us, hs, hu, rfl⟩
  transfer := by
    rintro p q _ ⟨ss, us, hs, hu, rfl⟩
    obtain ⟨ss', hs', hst⟩ := hS.transfer p q ss hs
    obtain ⟨us', hu', hut⟩ := hT.transfer _ (q + (textAll ss').length) us hu
    exact ⟨ss' ++ us', ⟨ss', us', hs', hu', rfl⟩, by simp only [Tree.textAll_append, hst, hut]⟩

theorem Uniform.orElse (hS : S.Uniform) (hT : T.Uniform) : (S.orElse T).Uniform where
  exists_phrase p := by
    obtain ⟨ss, hs⟩ := hS.exists_phrase p
    exact ⟨ss, Or.inl hs⟩
  transfer := by
    rintro p q ts (h | h)
    · obtain ⟨us, hu, he⟩ := hS.transfer p q ts h
      exact ⟨us, Or.inl hu, he⟩
    · obtain ⟨us, hu, he⟩ := hT.transfer p q ts h
      exact ⟨us, Or.inr hu, he⟩

theorem Uniform.optional (hS : S.Uniform) : S.optional.Uniform :=
  hS.orElse uniform_empty

theorem Uniform.upTo (hS : S.Uniform) (limit : Nat) : (S.upTo limit).Uniform := by
  induction limit with
  | zero => exact uniform_empty
  | succ limit ih => exact (hS.andThen ih).optional

theorem Uniform.many (hS : S.Uniform) : S.many.Uniform where
  exists_phrase _ := ⟨[], .nil⟩
  transfer := by
    intro p q ts h
    induction h generalizing q with
    | nil => exact ⟨[], .nil, rfl⟩
    | cons hs _ ih =>
      obtain ⟨ss', hs', hst⟩ := hS.transfer _ q _ hs
      obtain ⟨us', hu', hut⟩ := ih (q + (textAll ss').length)
      exact ⟨ss' ++ us', .cons hs' hu', by simp only [Tree.textAll_append, hst, hut]⟩

theorem Uniform.rule {rule : Rule} (hS : S.Uniform) : (S.rule rule).Uniform where
  exists_phrase p := by
    obtain ⟨ss, hs⟩ := hS.exists_phrase p
    exact ⟨_, ss, hs, rfl⟩
  transfer := by
    rintro p q _ ⟨ss, hs, rfl⟩
    obtain ⟨ss', hs', hst⟩ := hS.transfer p q ss hs
    exact ⟨_, ⟨ss', hs', rfl⟩, by simp [hst]⟩

theorem begins_andThen (hT : T.Uniform) : (S.andThen T).Begins p u ↔
    S.Begins p u ∨
      ∃ ss v, S p ss ∧ T.Begins (p + (textAll ss).length) v ∧ u = textAll ss ++ v := by
  constructor
  · rintro ⟨_, ⟨ss, us, hs, hu, rfl⟩, hpre⟩
    rw [Tree.textAll_append] at hpre
    rcases prefix_append_iff.mp hpre with h | ⟨v, rfl, hv⟩
    · exact Or.inl ⟨ss, hs, h⟩
    · exact Or.inr ⟨ss, v, hs, ⟨us, hu, hv⟩, rfl⟩
  · rintro (⟨ss, hs, h⟩ | ⟨ss, v, hs, ⟨us, hu, hv⟩, rfl⟩)
    · obtain ⟨us, hu⟩ := hT.exists_phrase (p + (textAll ss).length)
      refine ⟨ss ++ us, ⟨ss, us, hs, hu, rfl⟩, ?_⟩
      rw [Tree.textAll_append]
      exact prefix_append_iff.mpr (Or.inl h)
    · refine ⟨ss ++ us, ⟨ss, us, hs, hu, rfl⟩, ?_⟩
      rw [Tree.textAll_append]
      exact prefix_append_iff.mpr (Or.inr ⟨v, rfl, hv⟩)

/-! ### The characters at the borders -/

/-- Every phrase has at least one character. -/
def NeverEmpty (S : Phrases) : Prop :=
  ∀ p ts, S p ts → textAll ts ≠ []

/-- The text of every phrase consists of characters of a set. -/
def Within (S : Phrases) (A : Set Char) : Prop :=
  ∀ p ts, S p ts → ∀ x ∈ textAll ts, x ∈ A

/-- Phrases begin with a character of a set, if they are not empty. -/
def StartsIn (S : Phrases) (A : Set Char) : Prop :=
  ∀ p, S.next p [] ⊆ A

/-- **A phrase is complete before a character of the set**: no character of the set continues a
phrase to a longer beginning. -/
def EndsBefore (S : Phrases) (A : Set Char) : Prop :=
  ∀ p ts, S p ts → ∀ x ∈ S.next p (textAll ts), x ∉ A

variable {A B : Set Char}

theorem Within.mem_of_begins (hS : S.Within A) (h : S.Begins p u) (hx : x ∈ u) : x ∈ A := by
  obtain ⟨ts, hts, hu⟩ := h
  exact hS p ts hts x (hu.subset hx)

theorem Within.endsBefore (hS : S.Within A) (hAB : ∀ x ∈ A, x ∉ B) : S.EndsBefore B := by
  intro p ts _ x hx
  exact hAB x (hS.mem_of_begins hx List.mem_concat_self)

theorem EndsBefore.mono (hS : S.EndsBefore B) (h : A ⊆ B) : S.EndsBefore A := by
  intro p ts hts x hx hxA
  exact hS p ts hts x hx (h hxA)

theorem startsIn_empty : empty.StartsIn A := by
  intro p
  rw [next_empty]
  exact Set.empty_subset A

theorem startsIn_leaf {leaf : Leaf} : (Phrases.leaf leaf).StartsIn {x | leaf.Matches x} := by
  intro p x hx
  obtain ⟨y, hy, hxy⟩ := begins_leaf.mp hx
  obtain rfl : x = y := by simpa using hxy
  exact hy

theorem StartsIn.mono (hS : S.StartsIn A) (h : A ⊆ B) : S.StartsIn B := fun p =>
  (hS p).trans h

theorem StartsIn.orElse (hS : S.StartsIn A) (hT : T.StartsIn A) : (S.orElse T).StartsIn A := by
  intro p
  rw [next_orElse]
  exact Set.union_subset (hS p) (hT p)

theorem StartsIn.optional (hS : S.StartsIn A) : S.optional.StartsIn A :=
  hS.orElse startsIn_empty

/-- The first character of two phrases in a row is the first one of the first phrase, or, where that
is empty, of the second. -/
theorem begins_singleton_andThen (h : (S.andThen T).Begins p [x]) :
    S.Begins p [x] ∨ ∃ ss, S p ss ∧ textAll ss = [] ∧ T.Begins p [x] := by
  obtain ⟨_, ⟨ss, us, hs, hu, rfl⟩, hpre⟩ := h
  rw [Tree.textAll_append] at hpre
  cases hss : textAll ss with
  | nil =>
    rw [hss] at hpre hu
    exact Or.inr ⟨ss, hs, hss, us, hu, hpre⟩
  | cons y w =>
    rw [hss, List.cons_append, List.cons_prefix_cons] at hpre
    exact Or.inl ⟨ss, hs, by rw [hss, hpre.1]; simp⟩

theorem StartsIn.andThen (hS : S.StartsIn A) (hT : T.StartsIn A) : (S.andThen T).StartsIn A := by
  intro p x hx
  rcases begins_singleton_andThen hx with h | ⟨_, _, _, h⟩
  · exact hS p h
  · exact hT p h

theorem StartsIn.andThen_of_neverEmpty (hS : S.StartsIn A) (hne : S.NeverEmpty) :
    (S.andThen T).StartsIn A := by
  intro p x hx
  rcases begins_singleton_andThen hx with h | ⟨ss, hs, hnil, _⟩
  · exact hS p h
  · exact absurd hnil (hne p ss hs)

theorem StartsIn.many (hS : S.StartsIn A) (hne : S.NeverEmpty) : S.many.StartsIn A := by
  rw [many_eq]
  exact (hS.andThen_of_neverEmpty hne).optional

theorem neverEmpty_leaf {leaf : Leaf} : (Phrases.leaf leaf).NeverEmpty := by
  rintro p _ ⟨x, _, rfl⟩
  simp

theorem NeverEmpty.andThen_left (hS : S.NeverEmpty) : (S.andThen T).NeverEmpty := by
  rintro p _ ⟨ss, us, hs, _, rfl⟩
  rw [Tree.textAll_append]
  exact List.append_ne_nil_of_left_ne_nil (hS p ss hs) _

theorem NeverEmpty.rule {rule : Rule} (hS : S.NeverEmpty) : (S.rule rule).NeverEmpty := by
  rintro p _ ⟨ss, hs, rfl⟩
  simpa using hS p ss hs

/-- **A leaf is complete**: nothing continues its single character. -/
theorem endsBefore_leaf {leaf : Leaf} : (Phrases.leaf leaf).EndsBefore A := by
  rintro p _ ⟨x, _, rfl⟩
  intro y hy _
  obtain ⟨z, _, hz⟩ := begins_leaf.mp hy
  have hlen := hz.length_le
  simp at hlen

/-- Behind a leaf a phrase ends where it ends by itself. -/
theorem EndsBefore.leaf_andThen {leaf : Leaf} (hT : T.EndsBefore A) :
    ((Phrases.leaf leaf).andThen T).EndsBefore A := by
  rintro p _ ⟨_, us, ⟨x, _, rfl⟩, hu, rfl⟩
  intro y hy
  refine hT _ us hu y ?_
  rw [Tree.textAll_append] at hy
  exact (begins_leaf_andThen.mp hy).2

/-! ### The border between two phrases -/

/-- **The second phrase waits for the end of the first**: behind a phrase that is only part of a
longer beginning, nothing of the second phrase fits into the text. -/
theorem EndsBefore.eq_nil (hS : S.EndsBefore A) (hT : T.StartsIn A) {ss : List Tree}
    {t : List Char} (hs : S p ss) (hw : S.Begins p w) (hlt : textAll ss <+: w)
    (hne : textAll ss ≠ w) (hwt : w <+: t) (hv : T.Begins q v)
    (hvt : textAll ss ++ v <+: t) : v = [] := by
  cases v with
  | nil => rfl
  | cons x v =>
    exfalso
    -- the text goes on with the same character in both ways of reading it
    obtain ⟨y, hy⟩ := exists_concat_prefix hlt hne
    have hx : textAll ss ++ [x] <+: t :=
      ((List.prefix_append_right_inj _).mpr ⟨v, rfl⟩).trans hvt
    have hxy : textAll ss ++ [x] = textAll ss ++ [y] :=
      (List.prefix_of_prefix_length_le hx (hy.trans hwt) (by simp)).eq_of_length (by simp)
    have hmem : x ∈ S.next p (textAll ss) := hw.of_isPrefix (hxy ▸ hy)
    exact hS p ss hs x hmem (hT q (hv.of_isPrefix ⟨v, rfl⟩))

/-- **What continues two phrases in a row**, when the first of them is as long as the text allows: a
character that continues it, or one that continues what there is of the second. -/
theorem next_andThen (hS : S.EndsBefore A) (hT : T.StartsIn A) (hTu : T.Uniform)
    {ss : List Tree} (hs : S p ss)
    (hlong : ∀ ss', S p ss' → textAll ss' <+: textAll ss ++ v → textAll ss' <+: textAll ss) :
    (S.andThen T).next p (textAll ss ++ v) =
      S.next p (textAll ss ++ v) ∪ T.next (p + (textAll ss).length) v := by
  ext x
  constructor
  · intro hx
    rcases (begins_andThen hTu).mp hx with h | ⟨ss', v', hs', hv', he⟩
    · exact Or.inl h
    rcases List.prefix_concat_iff.mp (⟨v', he.symm⟩ : textAll ss' <+: (textAll ss ++ v) ++ [x])
      with h | h
    · exact Or.inl ⟨ss', hs', h ▸ List.prefix_rfl⟩
    · refine Or.inr ?_
      have hpre := hlong ss' hs' h
      rcases eq_or_ne (textAll ss') (textAll ss) with heq | hne
      · rw [heq, List.append_assoc, List.append_cancel_left_eq] at he
        change T.Begins _ (v ++ [x])
        rw [he, ← heq]
        exact hv'
      · obtain rfl := hS.eq_nil hT hs' (begins_textAll hs) hpre hne
          (t := textAll ss ++ v ++ [x]) (by simp) hv' (he ▸ List.prefix_rfl)
        rw [List.append_nil] at he
        exact absurd (he ▸ h : (textAll ss ++ v) ++ [x] <+: textAll ss ++ v) not_concat_prefix
  · rintro (h | h)
    · exact (begins_andThen hTu).mpr (Or.inl h)
    · exact (begins_andThen hTu).mpr (Or.inr ⟨ss, v ++ [x], hs, h, List.append_assoc ..⟩)

end Phrases

end RomanArithmetic
