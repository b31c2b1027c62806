import RomanArithmetic.Proofs.Phrases

/-!
# Reading a kind of phrases

What a recognizer does to a text is compared here with the kind of phrases that it is meant for.
`RomanArithmetic.Recognizer.Reads r S c` says that the recognizer `r` does at the cursor `c` all
that can be asked of it:

* what it finds is a phrase of kind `S` at the beginning of the text, no such phrase is longer, and
  it finds one if there is any;
* its furthest failure lies no further than the longest beginning of a phrase that the text begins
  with, and the leaves recorded *there* match exactly the characters that continue this beginning.

The second point speaks of all attempts together, also of those that were given up: a phrase may
have been found although a longer one had begun. That is why it is not stated for a failure only.

## One lemma for each combination

Each combination of recognizers reads the combination of kinds of phrases of the same name, under a
condition that keeps the first attempt from being wrong. For a sequence it is that the border
between the two phrases can be seen (`RomanArithmetic.Recognizer.Reads.andThen`), for a choice that
no phrase of the first kind begins one of the second (`RomanArithmetic.Recognizer.Reads.orElse`).
Everything is stated at one cursor, so that a rule which refers to itself can be treated by
induction on the length of the text.
-/

namespace RomanArithmetic

open RomanArithmetic.Tree (textAll)

/-! ### The record of failures -/

namespace Furthest

/-- The leaves that are recorded at a position. -/
def leavesAt (f : Furthest) (p : Nat) : List Leaf :=
  if f.position = p then f.leaves else []

/-- **A record that marks a position**: nothing failed behind the position, and the leaves that
failed at it match the characters of a set. -/
structure Marks (f : Furthest) (p : Nat) (A : Set Char) : Prop where
  position_le : f.position ≤ p
  mem_iff : ∀ x, x ∈ A ↔ ∃ l ∈ f.leavesAt p, l.Matches x

variable {f g : Furthest} {p q : Nat} {A B : Set Char} {l : Leaf}

theorem leavesAt_of_lt (h : f.position < p) : f.leavesAt p = [] := by
  rw [leavesAt, if_neg (Nat.ne_of_lt h)]

@[simp] theorem leavesAt_none : none.leavesAt p = [] := by
  rw [leavesAt, none, ite_self]

@[simp] theorem leavesAt_failed : (failed l p).leavesAt p = [l] := by
  rw [leavesAt, failed, if_pos rfl]

theorem mem_leaves_of_mem_leavesAt (h : l ∈ f.leavesAt p) : f.position = p ∧ l ∈ f.leaves := by
  rw [leavesAt] at h
  split at h
  · next hp => exact ⟨hp, h⟩
  · exact absurd h List.not_mem_nil

/-- **The record of two parts**, seen from a position that neither has gone past. -/
theorem leavesAt_merge (hf : f.position ≤ p) (hg : g.position ≤ p) :
    (f.merge g).leavesAt p = f.leavesAt p ++ g.leavesAt p := by
  grind [merge, leavesAt]

theorem mem_leaves_merge (h : l ∈ (f.merge g).leaves) : l ∈ f.leaves ∨ l ∈ g.leaves := by
  grind [merge]

theorem marks_none : none.Marks p ∅ :=
  ⟨Nat.zero_le p, fun x => by simp⟩

theorem marks_failed : (failed l p).Marks p {x | l.Matches x} :=
  ⟨Nat.le_refl p, fun x => by simp⟩

/-- Nothing is recorded behind the position. -/
theorem Marks.of_lt (h : f.Marks p A) (hpq : p < q) : f.Marks q ∅ := by
  have hlt := Nat.lt_of_le_of_lt h.position_le hpq
  exact ⟨Nat.le_of_lt hlt, fun x => by simp [leavesAt_of_lt hlt]⟩

theorem Marks.merge (hf : f.Marks p A) (hg : g.Marks p B) : (f.merge g).Marks p (A ∪ B) := by
  refine ⟨?_, fun x => ?_⟩
  · rw [position_merge]
    exact Nat.max_le.mpr ⟨hf.position_le, hg.position_le⟩
  · rw [leavesAt_merge hf.position_le hg.position_le, Set.mem_union, hf.mem_iff, hg.mem_iff]
    simp only [List.mem_append, or_and_right, exists_or]

end Furthest

/-! ### Leaves of one character -/

namespace Leaf

/-- **A leaf of one character** can be found, and is found exactly where a character stands that it
matches. -/
structure Single (l : Leaf) : Prop where
  exists_matches : ∃ x, l.Matches x
  take?_nil : l.take? [] = none
  take?_cons : ∀ x text, l.take? (x :: text) = if l.Matches x then some ([x], text) else none

@[simp] theorem matches_symbol {x y : Char} : (symbol [x]).Matches y ↔ y = x := by
  simp only [Matches, take?, dropSymbol?]
  split
  · next h => simp [h]
  · next h => simp [Ne.symm h]

@[simp] theorem matches_letter {x : Char} : letter.Matches x ↔ x ∈ numeralLetters := by
  simp only [Matches, take?]
  split <;> simp_all

@[simp] theorem matches_operator {level : Level} {x : Char} :
    (operator level).Matches x ↔ x ∈ level.symbols := by
  simp only [Matches, take?]
  split <;> simp_all

theorem single_symbol (x : Char) : (symbol [x]).Single where
  exists_matches := ⟨x, by simp⟩
  take?_nil := rfl
  take?_cons y text := by
    by_cases h : x = y
    · simp [take?, dropSymbol?, h]
    · simp [take?, dropSymbol?, h, Ne.symm h]

theorem single_letter : letter.Single where
  exists_matches := ⟨'M', by decide⟩
  take?_nil := rfl
  take?_cons y text := by simp only [take?, matches_letter]

theorem single_operator (level : Level) : (operator level).Single where
  exists_matches := by cases level <;> [exact ⟨'+', by decide⟩; exact ⟨'*', by decide⟩]
  take?_nil := rfl
  take?_cons y text := by simp only [take?, matches_operator]

end Leaf

/-! ### How far a text can be read -/

/-- **The reach of a kind of phrases**: the longest beginning of a phrase that the text begins
with. -/
structure Phrases.Reaches (S : Phrases) (c : Cursor) (u : List Char) : Prop where
  isPrefix : u <+: c.rest
  begins : S.Begins c.position u
  stuck : ∀ x ∈ S.next c.position u, ¬u ++ [x] <+: c.rest

/-- Every other beginning that the text begins with is shorter. -/
theorem Phrases.Reaches.prefix_of_begins {S : Phrases} {c : Cursor} {u v : List Char}
    (h : S.Reaches c u) (hv : S.Begins c.position v) (hvr : v <+: c.rest) : v <+: u := by
  rcases List.prefix_or_prefix_of_prefix hvr h.isPrefix with hvu | huv
  · exact hvu
  rcases eq_or_ne u v with rfl | hne
  · exact List.prefix_rfl
  · obtain ⟨x, hx⟩ := exists_concat_prefix huv hne
    exact absurd (hx.trans hvr) (h.stuck x (hv.of_isPrefix hx))

/-- **A record for a kind of phrases marks the rest of the text** from its reach on: beyond the
reach nothing is recorded, and nothing continues. -/
theorem Furthest.Marks.of_reaches {f : Furthest} {S : Phrases} {c : Cursor} {u v : List Char}
    (hf : f.Marks (c.position + u.length) (S.next c.position u)) (hu : S.Reaches c u)
    (huv : u <+: v) (hv : v <+: c.rest) :
    f.Marks (c.position + v.length) (S.next c.position v) := by
  rcases eq_or_ne u v with rfl | hne
  · exact hf
  · obtain ⟨y, hy⟩ := exists_concat_prefix huv hne
    have hempty : S.next c.position v = ∅ := by
      refine Set.eq_empty_of_forall_notMem fun x hx => ?_
      have hyv : S.Begins c.position (u ++ [y]) :=
        Phrases.Begins.of_isPrefix hx (hy.trans (List.prefix_append v [x]))
      exact hu.stuck y hyv (hy.trans hv)
    rw [hempty]
    have hlen := hy.length_le
    rw [List.length_append, List.length_singleton] at hlen
    exact hf.of_lt (by omega)

namespace Recognizer

/-- **A recognizer reads a kind of phrases at a cursor.** -/
structure Reads (r : Recognizer) (S : Phrases) (c : Cursor) : Prop where
  /-- What is found is a phrase, and the new cursor stands behind it. -/
  found : ∀ {ts c'}, (r c).found = some (ts, c') →
    S c.position ts ∧ c.rest = textAll ts ++ c'.rest ∧
      c'.position = c.position + (textAll ts).length
  /-- Something at least as long as any phrase is found, and nothing else that is as long. -/
  longest : ∀ {ts}, S c.position ts → textAll ts <+: c.rest → ∃ ts' c',
    (r c).found = some (ts', c') ∧ (ts' = ts ∨ (textAll ts).length < (textAll ts').length)
  /-- The leaves that failed where no beginning goes on are those that would have continued it. -/
  furthest : ∃ u, S.Reaches c u ∧
    (r c).furthest.Marks (c.position + u.length) (S.next c.position u)
  /-- Every leaf that failed stands for some character. -/
  leaves : ∀ l ∈ (r c).furthest.leaves, ∃ x, l.Matches x

variable {r q : Recognizer} {S T : Phrases} {c c' : Cursor} {ts ss : List Tree} {A : Set Char}

theorem Reads.prefix_of_found (h : r.Reads S c) (hf : (r c).found = some (ts, c')) :
    textAll ts <+: c.rest :=
  ⟨c'.rest, (h.found hf).2.1.symm⟩

/-- Behind what is found there is no more text than before. -/
theorem Reads.length_rest_le (h : r.Reads S c) (hf : (r c).found = some (ts, c')) :
    c'.rest.length ≤ c.rest.length := by
  rw [(h.found hf).2.1, List.length_append]
  omega

theorem Reads.length_rest_lt (h : r.Reads S c) (hS : S.NeverEmpty)
    (hf : (r c).found = some (ts, c')) : c'.rest.length < c.rest.length := by
  have hpos := List.length_pos_iff.mpr (hS _ _ (h.found hf).1)
  rw [(h.found hf).2.1, List.length_append]
  omega

/-- Every phrase that the text begins with is a beginning of what is found. -/
theorem Reads.prefix_of_phrase (h : r.Reads S c) (hf : (r c).found = some (ts, c'))
    (hs : S c.position ss) (hpre : textAll ss <+: c.rest) : textAll ss <+: textAll ts := by
  obtain ⟨ts', c'', hf', hlen⟩ := h.longest hs hpre
  obtain ⟨rfl, rfl⟩ : ts = ts' ∧ c' = c'' := by simpa [hf] using hf'
  refine List.prefix_of_prefix_length_le hpre (h.prefix_of_found hf) ?_
  rcases hlen with rfl | hlt
  · exact Nat.le_refl _
  · exact Nat.le_of_lt hlt

/-- What is found is within reach. -/
theorem Reads.prefix_of_reaches (h : r.Reads S c) (hf : (r c).found = some (ts, c')) {u : List Char}
    (hu : S.Reaches c u) : textAll ts <+: u :=
  hu.prefix_of_begins (Phrases.begins_textAll (h.found hf).1) (h.prefix_of_found hf)

/-- Only the answer at the cursor matters. -/
theorem Reads.congr (hr : r.Reads S c) (h : q c = r c) : q.Reads S c :=
  ⟨fun hf => hr.found (h ▸ hf), fun hs hpre => h ▸ hr.longest hs hpre, h ▸ hr.furthest,
    h ▸ hr.leaves⟩

/-! ### Leaves -/

theorem reads_empty (c : Cursor) : empty.Reads Phrases.empty c where
  found h := by
    obtain ⟨rfl, rfl⟩ : [] = _ ∧ c = _ := by simpa [empty] using h
    exact ⟨rfl, rfl, rfl⟩
  longest h _ := by
    obtain rfl := h
    exact ⟨[], c, rfl, Or.inl rfl⟩
  furthest := by
    refine ⟨[], ⟨List.nil_prefix, Phrases.begins_nil (S := Phrases.empty) rfl, fun x hx => ?_⟩, ?_⟩
    · exact absurd hx (by simp [Phrases.next_empty])
    · rw [Phrases.next_empty]
      exact Furthest.marks_none
  leaves l hl := absurd hl List.not_mem_nil

theorem leaf_of_take?_eq_none {l : Leaf} (h : l.take? c.rest = none) :
    leaf l c = ⟨none, .failed l c.position⟩ := by
  rw [leaf]
  simp only [h]

theorem leaf_of_matches {l : Leaf} (hl : l.Single) {x : Char} (hx : l.Matches x) (p : Nat)
    (text : List Char) :
    leaf l ⟨p, x :: text⟩ = ⟨some ([.leaf l p [x]], ⟨p + 1, text⟩), .none⟩ := by
  rw [leaf]
  simp only [hl.take?_cons, if_pos hx]
  rfl

/-- Where a leaf of one character fails, it is all that is recorded. -/
theorem reads_leaf_of_not_matches {l : Leaf} (hl : l.Single) (htake : l.take? c.rest = none)
    (hno : ∀ x, [x] <+: c.rest → ¬l.Matches x) : (leaf l).Reads (Phrases.leaf l) c := by
  have hleaf := leaf_of_take?_eq_none htake
  have hnext : (Phrases.leaf l).next c.position [] = {x | l.Matches x} :=
    Set.Subset.antisymm (Phrases.startsIn_leaf c.position) fun x hx =>
      Phrases.begins_leaf.mpr ⟨x, hx, List.prefix_rfl⟩
  refine ⟨?_, ?_, ⟨[], ⟨List.nil_prefix, ?_, ?_⟩, ?_⟩, ?_⟩
  · intro ts c' h
    rw [hleaf] at h
    exact absurd h (by simp)
  · rintro _ ⟨x, hx, rfl⟩ hpre
    exact absurd hx (hno x (by simpa using hpre))
  · obtain ⟨x, hx⟩ := hl.exists_matches
    exact Phrases.begins_leaf.mpr ⟨x, hx, List.nil_prefix⟩
  · intro x hx hpre
    exact hno x hpre (Phrases.startsIn_leaf _ hx)
  · rw [hleaf, hnext]
    exact Furthest.marks_failed
  · intro l' hl'
    rw [hleaf] at hl'
    obtain rfl : l' = l := by simpa [Furthest.failed] using hl'
    exact hl.exists_matches

/-- Where a leaf of one character is found, nothing is recorded. -/
theorem reads_leaf_of_matches {l : Leaf} (hl : l.Single) {x : Char} {p : Nat} {text : List Char}
    (hx : l.Matches x) : (leaf l).Reads (Phrases.leaf l) ⟨p, x :: text⟩ := by
  have hleaf := leaf_of_matches hl hx p text
  have hphrase : Phrases.leaf l p [.leaf l p [x]] := ⟨x, hx, rfl⟩
  have hstuck : (Phrases.leaf l).next p [x] = ∅ := by
    have := Phrases.endsBefore_leaf (A := Set.univ) p _ hphrase
    exact Set.eq_empty_of_forall_notMem (by simpa using this)
  refine ⟨?_, ?_, ⟨[x], ⟨by simp, Phrases.begins_textAll hphrase, ?_⟩, ?_⟩, ?_⟩
  · intro ts c' h
    rw [hleaf] at h
    obtain ⟨rfl, rfl⟩ : [Tree.leaf l p [x]] = _ ∧ (⟨p + 1, text⟩ : Cursor) = _ := by simpa using h
    exact ⟨hphrase, rfl, rfl⟩
  · rintro _ ⟨y, _, rfl⟩ hpre
    obtain rfl : y = x := by simpa using hpre
    exact ⟨_, _, congrArg Outcome.found hleaf, Or.inl rfl⟩
  · simp [hstuck]
  · rw [hleaf, hstuck]
    exact Furthest.marks_none
  · rw [hleaf]
    exact fun l' hl' => absurd hl' List.not_mem_nil

/-- **A leaf of one character** is found where the character stands, and otherwise it is what
failed. -/
theorem reads_leaf {l : Leaf} (hl : l.Single) (c : Cursor) :
    (leaf l).Reads (Phrases.leaf l) c := by
  obtain ⟨p, text⟩ := c
  cases text with
  | nil => exact reads_leaf_of_not_matches hl hl.take?_nil fun x hx => absurd hx (by simp)
  | cons y text =>
    by_cases hy : l.Matches y
    · exact reads_leaf_of_matches hl hy
    · refine reads_leaf_of_not_matches hl ?_ fun x hx => ?_
      · rw [hl.take?_cons, if_neg hy]
      · obtain rfl : x = y := by simpa using hx
        exact hy

/-! ### Sequence -/

theorem andThen_of_none (h : (r c).found = none) : r.andThen q c = r c := by
  obtain ⟨f, hf⟩ : ∃ f, r c = ⟨none, f⟩ := ⟨(r c).furthest, by rw [← h]⟩
  rw [andThen, hf]

theorem andThen_of_some (h : (r c).found = some (ts, c')) : r.andThen q c =
    ⟨(q c').found.map fun (us, c'') => (ts ++ us, c''),
      (r c).furthest.merge (q c').furthest⟩ := by
  obtain ⟨f, hf⟩ : ∃ f, r c = ⟨some (ts, c'), f⟩ := ⟨(r c).furthest, by rw [← h]⟩
  rw [andThen, hf]

/-- Where the first recognizer finds nothing there is only what it has tried. -/
theorem Reads.andThen_of_not_found (hr : r.Reads S c) (hf : (r c).found = none)
    (hTu : T.Uniform) : (r.andThen q).Reads (S.andThen T) c := by
  obtain ⟨u, hu, hm⟩ := hr.furthest
  have hnone : ∀ ss, S c.position ss → ¬textAll ss <+: c.rest := by
    intro ss hs hpre
    obtain ⟨ts, c', hts, -⟩ := hr.longest hs hpre
    exact absurd (hf.symm.trans hts) (by simp)
  have hnext : (S.andThen T).next c.position u = S.next c.position u := by
    ext x
    refine (Phrases.begins_andThen hTu).trans (or_iff_left_of_imp ?_)
    rintro ⟨ss, v, hs, -, he⟩
    rcases List.prefix_concat_iff.mp (⟨v, he.symm⟩ : textAll ss <+: u ++ [x]) with h | h
    · exact ⟨ss, hs, h ▸ List.prefix_rfl⟩
    · exact absurd (h.trans hu.isPrefix) (hnone ss hs)
  refine ⟨?_, ?_, ⟨u, ⟨hu.isPrefix, ?_, ?_⟩, ?_⟩, ?_⟩
  · intro ts c' h
    rw [andThen_of_none hf, hf] at h
    exact absurd h (by simp)
  · rintro _ ⟨ss, us, hs, -, rfl⟩ hpre
    rw [Tree.textAll_append] at hpre
    exact absurd ((List.prefix_append _ _).trans hpre) (hnone ss hs)
  · exact (Phrases.begins_andThen hTu).mpr (Or.inl hu.begins)
  · rw [hnext]
    exact hu.stuck
  · rw [andThen_of_none hf, hnext]
    exact hm
  · rw [andThen_of_none hf]
    exact hr.leaves

/-- **The longest first phrase is the right one**: two phrases in a row that the text begins with
are found, or are shorter than what is found. -/
theorem Reads.longest_andThen (hr : r.Reads S c) (hf : (r c).found = some (ss, c'))
    (hq : q.Reads T c') (hS : S.EndsBefore A) (hT : T.StartsIn A) (hTu : T.Uniform)
    (hts : S.andThen T c.position ts) (hpre : textAll ts <+: c.rest) :
    ∃ us c'', (q c').found = some (us, c'') ∧
      (ss ++ us = ts ∨ (textAll ts).length < (textAll (ss ++ us)).length) := by
  obtain ⟨hs, hrest, hpos⟩ := hr.found hf
  obtain ⟨ss', us', hs', hu', rfl⟩ := hts
  rw [Tree.textAll_append] at hpre
  have hss' := hr.prefix_of_phrase hf hs' ((List.prefix_append _ _).trans hpre)
  rcases eq_or_ne (textAll ss') (textAll ss) with heq | hne
  · -- the first phrase is the one that was found, and the second begins where it ends
    obtain ⟨ss'', c'', hf', hlen⟩ := hr.longest hs' (heq ▸ hr.prefix_of_found hf)
    obtain ⟨rfl, rfl⟩ : ss = ss'' ∧ c' = c'' := by simpa [hf] using hf'
    obtain rfl : ss = ss' := hlen.resolve_right (by rw [heq]; exact lt_irrefl _)
    rw [← hpos] at hu'
    rw [hrest, List.prefix_append_right_inj] at hpre
    obtain ⟨us, c'', hqf, rfl | hlt⟩ := hq.longest hu' hpre
    · exact ⟨us, c'', hqf, Or.inl rfl⟩
    · refine ⟨us, c'', hqf, Or.inr ?_⟩
      simp only [Tree.textAll_append, List.length_append]
      omega
  · -- a shorter first phrase leaves no room for the second
    have hnil : textAll us' = [] :=
      hS.eq_nil hT hs' (Phrases.begins_textAll hs) hss' hne (hr.prefix_of_found hf)
        (Phrases.begins_textAll hu') hpre
    obtain ⟨us₀, hus₀, hnil₀⟩ := hTu.transfer _ c'.position us' hu'
    rw [hnil] at hnil₀
    obtain ⟨us, c'', hqf, -⟩ := hq.longest hus₀ (hnil₀ ▸ List.nil_prefix)
    refine ⟨us, c'', hqf, Or.inr ?_⟩
    have hlen := hss'.length_le
    have hlen' : (textAll ss').length ≠ (textAll ss).length := fun h => hne (hss'.eq_of_length h)
    simp only [Tree.textAll_append, hnil, List.length_append, List.length_nil]
    omega

/-- **The reach of a sequence** is the longer one of two: how far a first phrase reaches, and how
far a second one reaches behind the first phrase that was found. -/
theorem Reads.furthest_andThen (hr : r.Reads S c) (hf : (r c).found = some (ss, c'))
    (hq : q.Reads T c') (hS : S.EndsBefore A) (hT : T.StartsIn A) (hTu : T.Uniform) :
    ∃ u, (S.andThen T).Reaches c u ∧ ((r c).furthest.merge (q c').furthest).Marks
      (c.position + u.length) ((S.andThen T).next c.position u) := by
  obtain ⟨hs, hrest, hpos⟩ := hr.found hf
  obtain ⟨u₁, hu₁, hm₁⟩ := hr.furthest
  obtain ⟨u₂, hu₂, hm₂⟩ := hq.furthest
  obtain ⟨v, hv, h₁, h₂, hlast⟩ : ∃ v, v <+: c'.rest ∧ u₁ <+: textAll ss ++ v ∧ u₂ <+: v ∧
      (u₁ = textAll ss ++ v ∨ u₂ = v) := by
    have hw₂ : textAll ss ++ u₂ <+: c.rest :=
      hrest ▸ (List.prefix_append_right_inj _).mpr hu₂.isPrefix
    rcases List.prefix_or_prefix_of_prefix hu₁.isPrefix hw₂ with h | h
    · exact ⟨u₂, hu₂.isPrefix, h, List.prefix_rfl, Or.inr rfl⟩
    · obtain ⟨v, rfl⟩ := hr.prefix_of_reaches hf hu₁
      refine ⟨v, ?_, List.prefix_rfl, (List.prefix_append_right_inj _).mp h, Or.inl rfl⟩
      exact (List.prefix_append_right_inj _).mp (hrest ▸ hu₁.isPrefix)
  have hvr : textAll ss ++ v <+: c.rest := hrest ▸ (List.prefix_append_right_inj _).mpr hv
  have hnext : (S.andThen T).next c.position (textAll ss ++ v) =
      S.next c.position (textAll ss ++ v) ∪ T.next c'.position v := by
    rw [hpos]
    exact Phrases.next_andThen hS hT hTu hs fun ss' hs' hpre =>
      hr.prefix_of_phrase hf hs' (hpre.trans hvr)
  refine ⟨textAll ss ++ v, ⟨hvr, ?_, ?_⟩, ?_⟩
  · refine (Phrases.begins_andThen hTu).mpr ?_
    rcases hlast with h | h
    · exact Or.inl (h ▸ hu₁.begins)
    · exact Or.inr ⟨ss, v, hs, hpos ▸ h ▸ hu₂.begins, rfl⟩
  · intro x hx hpre
    rw [hnext] at hx
    rcases hx with hx | hx
    · exact not_concat_prefix ((hu₁.prefix_of_begins hx hpre).trans h₁)
    · rw [hrest, List.append_assoc, List.prefix_append_right_inj] at hpre
      exact not_concat_prefix ((hu₂.prefix_of_begins hx hpre).trans h₂)
  · have hm₁' := hm₁.of_reaches hu₁ h₁ hvr
    have hm₂' := hm₂.of_reaches hu₂ h₂ hv
    rw [hpos, Nat.add_assoc, ← List.length_append, ← hpos] at hm₂'
    rw [hnext]
    exact hm₁'.merge hm₂'

/-- **A sequence reads a sequence**, if the border between the two phrases can be seen. The second
recognizer only has to be right where the first one leaves off. -/
theorem Reads.andThen (hr : r.Reads S c)
    (hq : ∀ ts c', (r c).found = some (ts, c') → q.Reads T c') (hS : S.EndsBefore A)
    (hT : T.StartsIn A) (hTu : T.Uniform) :
    (r.andThen q).Reads (S.andThen T) c := by
  cases hf : (r c).found with
  | none => exact hr.andThen_of_not_found hf hTu
  | some found =>
    obtain ⟨ss, c'⟩ := found
    obtain ⟨hs, hrest, hpos⟩ := hr.found hf
    have hq := hq ss c' hf
    refine ⟨?_, ?_, ?_, ?_⟩
    · intro ts c'' h
      rw [andThen_of_some hf] at h
      obtain ⟨⟨us, c''⟩, hqf, he⟩ := Option.map_eq_some_iff.mp h
      obtain ⟨rfl, rfl⟩ := Prod.mk.inj he
      obtain ⟨hu, hrest', hpos'⟩ := hq.found hqf
      rw [hpos] at hu hpos'
      refine ⟨⟨ss, us, hs, hu, rfl⟩, ?_, ?_⟩
      · rw [Tree.textAll_append, List.append_assoc, ← hrest', hrest]
      · rw [hpos', Tree.textAll_append, List.length_append, Nat.add_assoc]
    · intro ts hts hpre
      obtain ⟨us, c'', hqf, hus⟩ := hr.longest_andThen hf hq hS hT hTu hts hpre
      exact ⟨ss ++ us, c'', by rw [andThen_of_some hf, hqf]; rfl, hus⟩
    · rw [andThen_of_some hf]
      exact hr.furthest_andThen hf hq hS hT hTu
    · intro l hl
      rw [andThen_of_some hf] at hl
      rcases Furthest.mem_leaves_merge hl with h | h
      · exact hr.leaves l h
      · exact hq.leaves l h

/-! ### Choice -/

theorem orElse_of_none (h : (r c).found = none) : r.orElse q c =
    ⟨(q c).found, (r c).furthest.merge (q c).furthest⟩ := by
  obtain ⟨f, hf⟩ : ∃ f, r c = ⟨none, f⟩ := ⟨(r c).furthest, by rw [← h]⟩
  rw [orElse, hf]

theorem orElse_of_some (h : (r c).found = some (ts, c')) : r.orElse q c = r c := by
  obtain ⟨f, hf⟩ : ∃ f, r c = ⟨some (ts, c'), f⟩ := ⟨(r c).furthest, by rw [← h]⟩
  rw [orElse, hf]

/-- Where the first recognizer finds something, the second kind of phrases has nothing to add. -/
theorem Reads.orElse_of_found (hr : r.Reads S c) (hf : (r c).found = some (ss, c'))
    (h : ∀ p ts, S p ts → ¬T.Begins p (textAll ts)) : (r.orElse q).Reads (S.orElse T) c := by
  obtain ⟨u, hu, hm⟩ := hr.furthest
  have hno : ∀ v, textAll ss <+: v → ¬T.Begins c.position v := fun v hpre hv =>
    h c.position ss (hr.found hf).1 (hv.of_isPrefix hpre)
  have hnext : (S.orElse T).next c.position u = S.next c.position u := by
    rw [Phrases.next_orElse, Set.union_eq_left]
    intro x hx
    exact absurd hx (hno _ ((hr.prefix_of_reaches hf hu).trans (List.prefix_append u [x])))
  have he : r.orElse q c = r c := orElse_of_some hf
  refine ⟨?_, ?_, ⟨u, ⟨hu.isPrefix, ?_, ?_⟩, ?_⟩, ?_⟩
  · intro ts c' hf'
    rw [he] at hf'
    obtain ⟨hs, hrest⟩ := hr.found hf'
    exact ⟨Or.inl hs, hrest⟩
  · rintro ts (hts | hts) hpre
    · rw [he]
      exact hr.longest hts hpre
    · refine ⟨ss, c', by rw [he, hf], Or.inr ?_⟩
      by_contra hlen
      have hst := List.prefix_of_prefix_length_le (hr.prefix_of_found hf) hpre (by omega)
      exact hno _ hst (Phrases.begins_textAll hts)
  · exact Phrases.begins_orElse.mpr (Or.inl hu.begins)
  · rw [hnext]
    exact hu.stuck
  · rw [he, hnext]
    exact hm
  · rw [he]
    exact hr.leaves

/-- Where the first recognizer finds nothing, both have tried all they can. -/
theorem Reads.orElse_of_not_found (hr : r.Reads S c) (hq : q.Reads T c) (hf : (r c).found = none) :
    (r.orElse q).Reads (S.orElse T) c := by
  obtain ⟨u₁, hu₁, hm₁⟩ := hr.furthest
  obtain ⟨u₂, hu₂, hm₂⟩ := hq.furthest
  obtain ⟨u, hu, h₁, h₂, hlast⟩ : ∃ u, u <+: c.rest ∧ u₁ <+: u ∧ u₂ <+: u ∧ (u₁ = u ∨ u₂ = u) := by
    rcases List.prefix_or_prefix_of_prefix hu₁.isPrefix hu₂.isPrefix with h | h
    · exact ⟨u₂, hu₂.isPrefix, h, List.prefix_rfl, Or.inr rfl⟩
    · exact ⟨u₁, hu₁.isPrefix, List.prefix_rfl, h, Or.inl rfl⟩
  refine ⟨?_, ?_, ⟨u, ⟨hu, ?_, ?_⟩, ?_⟩, ?_⟩
  · intro ts c' h
    rw [orElse_of_none hf] at h
    obtain ⟨hs, hrest⟩ := hq.found h
    exact ⟨Or.inr hs, hrest⟩
  · rintro ts (hts | hts) hpre
    · obtain ⟨_, _, hf', -⟩ := hr.longest hts hpre
      exact absurd (hf.symm.trans hf') (by simp)
    · rw [orElse_of_none hf]
      exact hq.longest hts hpre
  · rcases hlast with rfl | rfl
    · exact Phrases.begins_orElse.mpr (Or.inl hu₁.begins)
    · exact Phrases.begins_orElse.mpr (Or.inr hu₂.begins)
  · intro x hx hpre
    rcases Phrases.begins_orElse.mp hx with hx | hx
    · exact not_concat_prefix ((hu₁.prefix_of_begins hx hpre).trans h₁)
    · exact not_concat_prefix ((hu₂.prefix_of_begins hx hpre).trans h₂)
  · rw [orElse_of_none hf, Phrases.next_orElse]
    exact (hm₁.of_reaches hu₁ h₁ hu).merge (hm₂.of_reaches hu₂ h₂ hu)
  · rw [orElse_of_none hf]
    intro l hl
    rcases Furthest.mem_leaves_merge hl with h | h
    · exact hr.leaves l h
    · exact hq.leaves l h

/-- **An ordered choice reads the union**, if what the first recognizer finds is never the beginning
of a phrase of the second kind: then nothing is lost by not coming back. -/
theorem Reads.orElse (hr : r.Reads S c) (hq : q.Reads T c)
    (h : ∀ p ts, S p ts → ¬T.Begins p (textAll ts)) : (r.orElse q).Reads (S.orElse T) c := by
  cases hf : (r c).found with
  | none => exact hr.orElse_of_not_found hq hf
  | some found => exact hr.orElse_of_found hf h

theorem Reads.optional (hr : r.Reads S c) (hS : S.NeverEmpty) : (optional r).Reads S.optional c :=
  hr.orElse (reads_empty c) fun p ts hts hb => hS p ts hts (Phrases.begins_empty.mp hb)

/-! ### Repetition -/

/-- **A bounded repetition of leaves**, which are complete wherever they end. -/
theorem Reads.upTo (hr : ∀ c, r.Reads S c) (hS : S.EndsBefore Set.univ) (hne : S.NeverEmpty)
    (hSu : S.Uniform) (limit : Nat) (c : Cursor) : (upTo limit r).Reads (S.upTo limit) c := by
  induction limit generalizing c with
  | zero => exact reads_empty c
  | succ limit ih =>
    refine Reads.optional ?_ hne.andThen_left
    exact (hr c).andThen (fun _ c' _ => ih c') hS (fun _ _ _ => trivial) (hSu.upTo limit)

/-- The repetition whose bound is more than the number of characters that are left. -/
theorem Reads.upTo_many {n : Nat} (hr : ∀ c, c.rest.length < n → r.Reads S c)
    (hS : S.EndsBefore A) (hA : S.StartsIn A) (hne : S.NeverEmpty) (hSu : S.Uniform)
    (hc : c.rest.length < n) : (Recognizer.upTo n r).Reads S.many c := by
  induction n generalizing c with
  | zero => exact absurd hc (Nat.not_lt_zero _)
  | succ n ih =>
    rw [Phrases.many_eq]
    refine Reads.optional ?_ hne.andThen_left
    refine (hr c hc).andThen (fun ts c' hf => ?_) hS (hA.many hne) hSu.many
    -- each of them takes a character, so that the bound decreases slower than the text
    have hlt := (hr c hc).length_rest_lt hne hf
    exact ih (fun c'' h => hr c'' (by omega)) (by omega)

/-- **A repetition reads any number of phrases in a row**, if it can be seen where each of them
ends. -/
theorem Reads.many (hr : ∀ c', c'.rest.length ≤ c.rest.length → r.Reads S c')
    (hS : S.EndsBefore A) (hA : S.StartsIn A) (hne : S.NeverEmpty) (hSu : S.Uniform) :
    r.many.Reads S.many c :=
  (Reads.upTo_many (fun c' h => hr c' (Nat.le_of_lt_succ h)) hS hA hne hSu
    (Nat.lt_succ_self _)).congr rfl

/-! ### Rules and what lies ahead -/

theorem Reads.rule (hr : r.Reads S c) (R : Rule) : (rule R r).Reads (S.rule R) c := by
  obtain ⟨u, hu, hm⟩ := hr.furthest
  refine ⟨?_, ?_, ⟨u, ⟨hu.isPrefix, Phrases.begins_rule.mpr hu.begins, ?_⟩, ?_⟩, hr.leaves⟩
  · intro ts c' h
    obtain ⟨⟨ss, c''⟩, hf, he⟩ := Option.map_eq_some_iff.mp h
    obtain ⟨rfl, rfl⟩ := Prod.mk.inj he
    obtain ⟨hs, hrest, hpos⟩ := hr.found hf
    refine ⟨⟨ss, hs, by rw [hpos]⟩, ?_, ?_⟩
    · simpa using hrest
    · simpa using hpos
  · rintro _ ⟨ss, hs, rfl⟩ hpre
    have htext : ∀ p q us, textAll [.node R p q us] = textAll us := by simp
    rw [htext] at hpre ⊢
    obtain ⟨ss', c', hf, hlen⟩ := hr.longest hs hpre
    refine ⟨[.node R c.position c'.position ss'], c', ?_, ?_⟩
    · rw [Recognizer.rule, hf]
      rfl
    · rw [htext]
      refine hlen.imp_left fun h => ?_
      rw [(hr.found hf).2.2, h]
  · rw [Phrases.next_rule]
    exact hu.stuck
  · rw [Phrases.next_rule]
    exact hm

theorem ahead_andThen_of_none (h : (r c).found = none) :
    (ahead r).andThen q c = ⟨none, (r c).furthest⟩ := by
  rw [andThen_of_none] <;> simp [ahead, h]

theorem ahead_andThen_of_some (h : (r c).found = some (ts, c')) :
    (ahead r).andThen q c = ⟨(q c).found, (r c).furthest.merge (q c).furthest⟩ := by
  have hahead : (ahead r c).found = some ([], c) := by simp [ahead, h]
  rw [andThen_of_some hahead]
  simp [ahead]

/-- Where the leaf ahead fails there is no phrase but the empty one. -/
theorem Reads.ahead_of_not_found {l : Leaf} (hl : (leaf l).Reads (Phrases.leaf l) c)
    (hf : (leaf l c).found = none) (hA : S.StartsIn {x | l.Matches x})
    (hone : ∀ p x, l.Matches x → ∃ ts, S p ts ∧ textAll ts = [x]) :
    ((ahead (leaf l)).andThen r).Reads S.nonempty c := by
  obtain ⟨u, hu, hm⟩ := hl.furthest
  have hno : ∀ x, l.Matches x → ¬[x] <+: c.rest := by
    intro x hx hpre
    have hphrase : Phrases.leaf l c.position [.leaf l c.position [x]] := ⟨x, hx, rfl⟩
    obtain ⟨_, _, hf', -⟩ := hl.longest hphrase (by simpa using hpre)
    exact absurd (hf.symm.trans hf') (by simp)
  obtain ⟨x, hx, hux⟩ := Phrases.begins_leaf.mp hu.begins
  obtain rfl : u = [] := by
    cases u with
    | nil => rfl
    | cons y u =>
      obtain ⟨rfl, rfl⟩ : y = x ∧ u = [] := by simpa using hux
      exact absurd hu.isPrefix (hno y hx)
  have hnext : S.nonempty.next c.position [] = (Phrases.leaf l).next c.position [] := by
    rw [Phrases.next_nonempty]
    refine Set.Subset.antisymm ?_ ?_ <;> intro y hy
    · exact Phrases.begins_leaf.mpr ⟨y, hA _ hy, List.prefix_rfl⟩
    · obtain ⟨ts, hts, he⟩ := hone c.position y (Phrases.startsIn_leaf _ hy)
      exact ⟨ts, hts, he ▸ List.prefix_rfl⟩
  refine ⟨?_, ?_, ⟨[], ⟨List.nil_prefix, ?_, hnext ▸ hu.stuck⟩, ?_⟩, ?_⟩
  · intro ts c' h
    rw [ahead_andThen_of_none hf] at h
    exact absurd h (by simp)
  · rintro ts ⟨hts, hne⟩ hpre
    obtain ⟨y, w, hyw⟩ := List.exists_cons_of_ne_nil hne
    have hy : [y] <+: textAll ts := hyw ▸ ⟨w, rfl⟩
    exact absurd (hy.trans hpre) (hno y (hA _ ((Phrases.begins_textAll hts).of_isPrefix hy)))
  · obtain ⟨ts, hts, he⟩ := hone c.position x hx
    exact Phrases.begins_nil (S := S.nonempty) ⟨hts, by simp [he]⟩
  · rw [ahead_andThen_of_none hf, hnext]
    exact hm
  · rw [ahead_andThen_of_none hf]
    exact hl.leaves

/-- Behind the first character a leaf has nothing to record. -/
theorem Reads.marks_leaf {l : Leaf} (hl : (leaf l).Reads (Phrases.leaf l) c) {u : List Char}
    (hu : u <+: c.rest) (hne : u ≠ []) :
    (leaf l c).furthest.Marks (c.position + u.length) ∅ := by
  obtain ⟨v, hv, hm⟩ := hl.furthest
  have hpos := List.length_pos_iff.mpr hne
  have hvu : v <+: u := by
    obtain ⟨y, -, hy⟩ := Phrases.begins_leaf.mp hv.begins
    exact List.prefix_of_prefix_length_le hv.isPrefix hu (hy.length_le.trans hpos)
  have hnext : (Phrases.leaf l).next c.position u = ∅ := by
    refine Set.eq_empty_of_forall_notMem ?_
    intro x hx
    obtain ⟨y, -, hy⟩ := Phrases.begins_leaf.mp hx
    have hlen := hy.length_le
    rw [List.length_append, List.length_singleton, List.length_singleton] at hlen
    omega
  exact hnext ▸ hm.of_reaches hv hvu hu

/-- **A look at the first character rules out the empty phrase and nothing else**, if the leaf ahead
matches the first characters of the phrases, and each of these is a phrase by itself. -/
theorem Reads.ahead {l : Leaf} (hl : (leaf l).Reads (Phrases.leaf l) c) (hr : r.Reads S c)
    (hA : S.StartsIn {x | l.Matches x})
    (hone : ∀ p x, l.Matches x → ∃ ts, S p ts ∧ textAll ts = [x]) :
    ((Recognizer.ahead (leaf l)).andThen r).Reads S.nonempty c := by
  cases hf : (leaf l c).found with
  | none => exact Reads.ahead_of_not_found hl hf hA hone
  | some found =>
    obtain ⟨ls, c'⟩ := found
    have he := ahead_andThen_of_some (q := r) hf
    obtain ⟨⟨x, hx, rfl⟩, -, -⟩ := hl.found hf
    have hxr : [x] <+: c.rest := by simpa using hl.prefix_of_found hf
    obtain ⟨os, hos, hox⟩ := hone c.position x hx
    obtain ⟨u, hu, hm⟩ := hr.furthest
    have hxu : [x] <+: u :=
      hu.prefix_of_begins (hox ▸ Phrases.begins_textAll hos) hxr
    have hne : u ≠ [] := by
      rintro rfl
      exact absurd hxu (by simp)
    refine ⟨?_, ?_, ⟨u, ⟨hu.isPrefix, ?_, ?_⟩, ?_⟩, ?_⟩
    · intro ts c'' h
      rw [he] at h
      obtain ⟨hs, hrest⟩ := hr.found h
      refine ⟨⟨hs, ?_⟩, hrest⟩
      intro hnil
      have := hr.prefix_of_phrase h hos (hox ▸ hxr)
      rw [hnil, hox] at this
      exact absurd this (by simp)
    · intro ts hts hpre
      rw [he]
      exact hr.longest hts.1 hpre
    · exact (Phrases.begins_nonempty hne).mpr hu.begins
    · rw [Phrases.next_nonempty]
      exact hu.stuck
    · have hmerge := (hl.marks_leaf hu.isPrefix hne).merge hm
      rw [Set.empty_union] at hmerge
      rw [he, Phrases.next_nonempty]
      exact hmerge
    · intro l' hl'
      rw [he] at hl'
      rcases Furthest.mem_leaves_merge hl' with h | h
      · exact hl.leaves l' h
      · exact hr.leaves l' h

end Recognizer

end RomanArithmetic
