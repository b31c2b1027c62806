import RomanArithmetic.Proofs.Evaluation
import RomanArithmetic.Proofs.Contexts

/-!
# Replacing what stands between brackets

What a calculation is worth depends on a group between brackets only through the value of the group:
`RomanArithmetic.evaluateText_replace` puts another calculation of the same value in its place, or
the numeral of the value without the brackets, and nothing changes around it.

The text in front of the group and the text behind it are arbitrary, and make no sense on their own.
What has to be shown is that the two brackets that are seen around the group are a pair in every
derivation of the whole. They are, because what stands between them is balanced: an operand that
ended inside the group would have a bracket open (`RomanArithmetic.Nested.group_cases`), and a pair
of brackets that began or ended there would be closed by the wrong one
(`RomanArithmetic.Nested.brackets_cases`). So the group is an operand of its own, and the derivation
around it is a derivation with a hole, into which any operand fits
(`RomanArithmetic.Uncut.exists_hole`).
-/

namespace RomanArithmetic

/-! ### A group in a text -/

/-- A group between two texts, seen as a whole and seen as its two brackets. -/
theorem append_group_append (u a v : List Char) :
    u ++ ('(' :: a ++ [')']) ++ v = u ++ '(' :: a ++ ')' :: v := by
  simp

namespace Nested

variable {A B : Set Char} {a s t u v w : List Char} {x : Char}

/-- **A group is not cut** behind a balanced text: the group ends in this text, or it begins behind
the character that follows. -/
theorem group_cases (hs : Nested A s) (ha : Nested B a) (h₁ : x ≠ '(') (h₂ : x ≠ ')')
    (h : s ++ x :: t = u ++ '(' :: a ++ ')' :: v) :
    (∃ m, s = u ++ '(' :: a ++ ')' :: m ∧ v = m ++ x :: t) ∨
      ∃ m, u = s ++ x :: m ∧ t = m ++ '(' :: a ++ ')' :: v := by
  rw [List.append_assoc, List.cons_append] at h
  rcases append_cons_cases h with ⟨-, hx, -⟩ | ⟨m, rfl, hm⟩ | ⟨m, rfl, rfl⟩
  · exact absurd hx h₁
  · rcases append_cons_cases hm with ⟨-, hx, -⟩ | ⟨k, rfl, -⟩ | ⟨k, rfl, rfl⟩
    · exact absurd hx.symm h₂
    · -- the text would end inside the group, with its bracket open
      have hu := (hs.outside u '(' ⟨m, by simp⟩).1
      have hm := (ha.outside m x ⟨k, by simp⟩).1
      have hsettled := hs.settled
      rw [depth_append, depth_cons, depth_opening] at hsettled
      omega
    · exact Or.inl ⟨k, by simp, rfl⟩
  · exact Or.inr ⟨m, rfl, by simp⟩

/-- **A group between brackets** is what stands between them with the brackets, or is inside. -/
theorem brackets_cases (hw : Nested {')'} w) (ha : Nested {')'} a)
    (h : '(' :: w ++ [')'] = u ++ '(' :: a ++ ')' :: v) :
    (u = [] ∧ w = a ∧ v = []) ∨
      ∃ u' v', u = '(' :: u' ∧ v = v' ++ [')'] ∧ w = u' ++ '(' :: a ++ ')' :: v' := by
  cases u with
  | nil =>
    have hrest : w ++ ')' :: [] = a ++ ')' :: v := by simpa using h
    rcases append_cons_cases hrest with ⟨rfl, -, rfl⟩ | ⟨m, rfl, -⟩ | ⟨m, rfl, -⟩
    · exact Or.inl ⟨rfl, rfl, rfl⟩
    · exact absurd rfl (ha.notMem_of_concat_prefix hw ⟨m, by simp⟩)
    · exact absurd rfl (hw.notMem_of_concat_prefix ha ⟨m, by simp⟩)
  | cons y u =>
    obtain ⟨rfl, hrest⟩ : '(' = y ∧ w ++ [')'] = u ++ '(' :: a ++ ')' :: v := by simpa using h
    rcases List.eq_nil_or_concat v with rfl | ⟨v, y, rfl⟩
    · -- the last bracket would close the group, and the first one would stay open
      obtain rfl : w = u ++ '(' :: a := List.append_cancel_right hrest
      have hu := (hw.outside u '(' ⟨a, by simp⟩).1
      have hsettled := hw.settled
      rw [depth_append, depth_cons, depth_opening, ha.settled] at hsettled
      omega
    · rw [List.concat_eq_append, ← List.cons_append, ← List.append_assoc] at hrest
      obtain ⟨rfl, hy⟩ := List.append_inj' hrest rfl
      obtain rfl : ')' = y := by simpa using hy
      exact Or.inr ⟨u, v, rfl, List.concat_eq_append, rfl⟩

end Nested

/-! ### Taking out a group -/

namespace Derives

variable {c : Category} {a u v w : List Char} {m x : Int}

/-- **A group is not cut**, because what is between its brackets is balanced. -/
theorem uncut_group (ha : Derives .expression a m) :
    Uncut ('(' :: a ++ [')']) fun _ _ => True where
  numeral := by
    intro u v x _ h
    exact absurd (h.mem_numeralLetters (x := '(') (by simp)) (by decide)
  brackets := by
    intro u v w x _ h hw
    rw [append_group_append] at hw
    rcases h.nested.brackets_cases ha.nested hw with ⟨rfl, -, rfl⟩ | ⟨u, v, rfl, rfl, rfl⟩
    · exact Or.inl ⟨rfl, rfl⟩
    · exact Or.inr ⟨u, v, trivial, rfl, rfl, (append_group_append u a v).symm⟩
  operator := by
    intro u v s t x c op _ h hw
    obtain ⟨h₁, h₂⟩ := op.symbol_ne_bracket
    rw [append_group_append] at hw
    rcases h.nested.group_cases ha.nested h₁ h₂ hw with ⟨k, rfl, rfl⟩ | ⟨k, rfl, rfl⟩
    · exact Or.inl ⟨k, trivial, (append_group_append u a k).symm, rfl⟩
    · exact Or.inr ⟨k, trivial, rfl, (append_group_append k a v).symm⟩

end Derives

/-! ### Putting something else in the place of a group -/

variable {a b u v w w' : List Char}

/-- **A group is a hole.** Without the group an accepted text is one with a hole. -/
theorem Accepted.exists_context (ha : Accepted a) (h : Accepted (u ++ '(' :: a ++ ')' :: v)) :
    ∃ f, Context .expression u v f := by
  obtain ⟨m, hm⟩ := ha.exists_derives
  obtain ⟨x, hx⟩ := h.exists_derives
  obtain ⟨-, f, -, hcontext, -⟩ :=
    hm.uncut_group.exists_hole hx trivial (append_group_append u a v).symm
  exact ⟨f, hcontext⟩

/-- A group in the hole of a text. -/
theorem Context.fill_group {c : Category} {f : Expr → Expr} {e : Expr} (h : Context c u v f)
    (ha : Writes .expression a e) : Writes c (u ++ '(' :: a ++ ')' :: v) (f e) := by
  simpa using h.fill ha.brackets

/-- What is accepted with one group is accepted with any other. -/
theorem Accepted.replace (ha : Accepted a) (hb : Accepted b)
    (h : Accepted (u ++ '(' :: a ++ ')' :: v)) : Accepted (u ++ '(' :: b ++ ')' :: v) := by
  obtain ⟨f, hcontext⟩ := ha.exists_context h
  obtain ⟨e, he⟩ := hb.exists_writes
  exact (hcontext.fill_group he).accepted

/-- **Texts with equal factors in the hole** come to the same, and the same is answered for them
under every limit that both factors fit. -/
theorem Context.evaluateText_congr {f : Expr → Expr} {e e' : Expr}
    (h : Context .expression u v f) (hw : Writes .expression w (f e))
    (hw' : Writes .expression w' (f e')) (he : e.value = e'.value) :
    (∃ x, ComesTo w x ∧ ComesTo w' x) ∧
      ∀ limit, e.Fits limit → e'.Fits limit → evaluateText limit w = evaluateText limit w' := by
  have hvalue := h.value_congr he
  refine ⟨⟨_, hw.comesTo, by rw [hvalue]; exact hw'.comesTo⟩, fun limit hfits hfits' => ?_⟩
  have hiff := h.fits_congr he (iff_of_true hfits hfits')
  by_cases hwhole : (f e).Fits limit
  · rw [hw.evaluateText_eq hwhole, hw'.evaluateText_eq (hiff.mp hwhole), hvalue]
  · rw [hw.evaluateText_eq_error hwhole, hw'.evaluateText_eq_error (mt hiff.mpr hwhole)]

/-- **Groups can be replaced by equals.** Between two brackets that are seen in a text one
calculation may take the place of another: the text is accepted with the one exactly if it is with
the other, it comes to the same if they do, and it stays the same if the numeral of the value is
written instead of the group. Under a limit on written numbers that lets the value of the group be
computed, the same is answered for both texts, and be it that a number is too long. -/
theorem evaluateText_replace (ha : Accepted a) (hb : Accepted b) (u v : List Char) :
    let first := u ++ '(' :: a ++ ')' :: v
    let second := u ++ '(' :: b ++ ')' :: v
    (Accepted first ↔ Accepted second) ∧
    (∀ n, ComesTo a n → ComesTo b n → Accepted first →
      (∃ x, ComesTo first x ∧ ComesTo second x) ∧
      ∀ limit, evaluateText limit a = .ok n → evaluateText limit b = .ok n →
        evaluateText limit first = evaluateText limit second) ∧
    (∀ n : Nat, 1 ≤ n → n ≤ 3999 → ComesTo a n → Accepted first →
      let third := u ++ Numeral.ofNat n ++ v
      Accepted third ∧ (∃ x, ComesTo first x ∧ ComesTo third x) ∧
      ∀ limit, evaluateText limit a = .ok n →
        evaluateText limit first = evaluateText limit third) := by
  intro first second
  obtain ⟨e, he⟩ := ha.exists_writes
  obtain ⟨e', he'⟩ := hb.exists_writes
  refine ⟨⟨fun h => ha.replace hb h, fun h => hb.replace ha h⟩, ?_, ?_⟩
  · intro n hna hnb h
    obtain ⟨f, hcontext⟩ := ha.exists_context h
    have hvalue := he.comesTo.unique hna
    have hvalue' := he'.comesTo.unique hnb
    obtain ⟨hsame, hlimit⟩ := hcontext.evaluateText_congr (hcontext.fill_group he)
      (hcontext.fill_group he') (hvalue.trans hvalue'.symm)
    refine ⟨hsame, fun limit hva hvb => hlimit limit ?_ ?_⟩
    · exact (he.evaluateText_eq_ok_iff.mp hva).1
    · exact (he'.evaluateText_eq_ok_iff.mp hvb).1
  · intro n hpos hle hna h third
    obtain ⟨f, hcontext⟩ := ha.exists_context h
    have hfilled := hcontext.fill (writes_number hpos hle)
    obtain ⟨hsame, hlimit⟩ := hcontext.evaluateText_congr (hcontext.fill_group he) hfilled
      (he.comesTo.unique hna)
    refine ⟨hfilled.accepted, hsame, fun limit hva => hlimit limit ?_ trivial⟩
    exact (he.evaluateText_eq_ok_iff.mp hva).1

/-- A group in a text that makes no sense without it. -/
theorem evaluateText_replace_in_half :
    let u := ['I', 'I', '*', '(', 'X', '-']
    let v := ['*', 'I', 'I', ')']
    let a := ['I', '+', 'I', 'I', 'I']
    let b := ['X', '-', 'V', 'I']
    ComesTo a 4 ∧ ComesTo b 4 ∧ evaluateText .unlimited (u ++ '(' :: a ++ ')' :: v) = .ok 4 ∧
      (∃ x, ComesTo (u ++ '(' :: a ++ ')' :: v) x ∧ ComesTo (u ++ '(' :: b ++ ')' :: v) x) ∧
      Accepted (u ++ ['I', 'V'] ++ v) := by
  intro u v a b
  have ha : ComesTo a 4 := comesTo_iff_unlimited.mpr rfl
  have hb : ComesTo b 4 := comesTo_iff_unlimited.mpr rfl
  have h : Accepted (u ++ '(' :: a ++ ')' :: v) := ⟨_, rfl⟩
  have hA : Accepted a := ⟨_, rfl⟩
  have hB : Accepted b := ⟨_, rfl⟩
  obtain ⟨-, hsame, hnumeral⟩ := evaluateText_replace hA hB u v
  exact ⟨ha, hb, rfl, (hsame 4 ha hb h).1, (hnumeral 4 (by decide) (by decide) ha h).1⟩

end RomanArithmetic
