import RomanArithmetic.Proofs.Reading
import RomanArithmetic.Recognition.Failure

/-!
# Reading a whole text

A recognizer that reads a kind of phrases at the beginning of a text is asked here for the text as a
whole. It succeeds exactly on the texts of the phrases
(`RomanArithmetic.Recognizer.Reads.whole_eq_ok`), and where it fails, the failure explains why
(`RomanArithmetic.Recognizer.Reads.explains_of_whole_eq_error`): its position is the reach of the
kind of phrases, and its leaves are those that could have stood there, the end of the text among
them if what comes before is complete.

The end of the text is the only leaf that stands for no character. It is looked for once, behind the
longest phrase, so that it is recorded where the text goes on although a phrase has ended.
-/

namespace RomanArithmetic

open RomanArithmetic.Tree (textAll)

theorem Leaf.not_matches_endOfText (x : Char) : ¬Leaf.endOfText.Matches x := nofun

namespace Furthest

variable {f : Furthest} {p q : Nat}

/-- A record in which something stands at a position consists of what stands there. -/
theorem eq_of_leavesAt_ne_nil (h : f.leavesAt p ≠ []) :
    f.position = p ∧ f.leaves = f.leavesAt p := by
  rw [leavesAt] at h ⊢
  split at h
  · next hp => exact ⟨hp, by rw [if_pos hp]⟩
  · exact absurd rfl h

/-- That the text did not end is nothing about its characters. -/
theorem marks_endOfText (h : p ≤ q) : (failed .endOfText p).Marks q ∅ := by
  refine ⟨h, fun x => iff_of_false (Set.notMem_empty x) ?_⟩
  rintro ⟨l, hl, hx⟩
  obtain ⟨-, hl⟩ := mem_leaves_of_mem_leavesAt hl
  obtain rfl : l = .endOfText := by simpa [failed] using hl
  exact Leaf.not_matches_endOfText x hx

end Furthest

/-- **A failure explains why a text is no phrase**: it stands where the longest beginning of a
phrase ends, and says how that beginning could have been continued, or that the text could have
ended. -/
structure ParseFailure.Explains (failure : ParseFailure) (S : Phrases) : Prop where
  reaches : S.Reaches ⟨0, failure.text⟩ failure.before
  position_le : failure.position ≤ failure.text.length
  mem_next_iff : ∀ x, x ∈ S.next 0 failure.before ↔ ∃ l ∈ failure.leaves, l.Matches x
  endOfText_iff : .endOfText ∈ failure.leaves ↔ ∃ ts, S 0 ts ∧ textAll ts = failure.before
  leaf_cases : ∀ l ∈ failure.leaves, l = .endOfText ∨ ∃ x, l.Matches x
  leaves_ne_nil : failure.leaves ≠ []

namespace Phrases

variable {S : Phrases} {p : Nat} {u : List Char}

/-- A beginning that is not complete goes on. -/
theorem Begins.exists_mem_next (h : S.Begins p u) (hno : ¬∃ ts, S p ts ∧ textAll ts = u) :
    ∃ x, x ∈ S.next p u := by
  obtain ⟨ts, hts, hu⟩ := h
  obtain ⟨x, hx⟩ := exists_concat_prefix hu fun he => hno ⟨ts, hts, he.symm⟩
  exact ⟨x, ts, hts, hx⟩

end Phrases

/-- **A record that marks the reach of a kind of phrases explains the failure**, if the end of the
text is recorded there exactly where a phrase is complete. -/
theorem ParseFailure.Explains.of_marks {S : Phrases} {text u : List Char} {f : Furthest}
    (hu : S.Reaches ⟨0, text⟩ u) (hm : f.Marks u.length (S.next 0 u))
    (hend : .endOfText ∈ f.leavesAt u.length ↔ ∃ ts, S 0 ts ∧ textAll ts = u)
    (hcases : ∀ l ∈ f.leaves, l = .endOfText ∨ ∃ x, l.Matches x) :
    (ParseFailure.mk text f.position f.leaves).Explains S := by
  have hne : f.leavesAt u.length ≠ [] := by
    by_cases hcomplete : ∃ ts, S 0 ts ∧ textAll ts = u
    · exact List.ne_nil_of_mem (hend.mpr hcomplete)
    · obtain ⟨x, hx⟩ := hu.begins.exists_mem_next hcomplete
      obtain ⟨l, hl, -⟩ := (hm.mem_iff x).mp hx
      exact List.ne_nil_of_mem hl
  obtain ⟨hpos, hleaves⟩ := Furthest.eq_of_leavesAt_ne_nil hne
  have hbefore : (ParseFailure.mk text f.position f.leaves).before = u := by
    rw [before, hpos]
    exact (List.prefix_iff_eq_take.mp hu.isPrefix).symm
  rw [← hleaves] at hend hne
  refine ⟨hbefore ▸ hu, hpos ▸ hu.isPrefix.length_le, fun x => ?_, hbefore ▸ hend, hcases, hne⟩
  rw [hbefore, hm.mem_iff, ← hleaves]

/-- **The position of a failure is the length of the longest beginning of a phrase** that the text
begins with. -/
theorem ParseFailure.Explains.longest {failure : ParseFailure} {S : Phrases}
    (h : failure.Explains S) : S.Begins 0 (failure.text.take failure.position) ∧
      ∀ n, failure.position < n → n ≤ failure.text.length →
        ¬S.Begins 0 (failure.text.take n) := by
  refine ⟨h.reaches.begins, fun n hn hlen hbegins => ?_⟩
  -- a longer beginning would be out of reach
  have hpre := h.reaches.prefix_of_begins hbegins (List.take_prefix n _)
  have hle := hpre.length_le
  rw [List.length_take, before, List.length_take] at hle
  omega

namespace Recognizer

variable {r : Recognizer} {S : Phrases} {text rest : List Char} {ts : List Tree} {p : Nat}
  {x : Char} {failure : ParseFailure}

/-! ### The three outcomes -/

theorem whole_of_none (h : (r ⟨0, text⟩).found = none) : r.whole text =
    .error ⟨text, (r ⟨0, text⟩).furthest.position, (r ⟨0, text⟩).furthest.leaves⟩ := by
  obtain ⟨f, hf⟩ : ∃ f, r ⟨0, text⟩ = ⟨none, f⟩ := ⟨(r ⟨0, text⟩).furthest, by rw [← h]⟩
  rw [whole, andThen_of_none h, hf]

theorem whole_of_some_nil (h : (r ⟨0, text⟩).found = some (ts, ⟨p, []⟩)) :
    r.whole text = .ok (ts ++ [.leaf .endOfText p []]) := by
  rw [whole, andThen_of_some h]
  rfl

theorem whole_of_some_cons (h : (r ⟨0, text⟩).found = some (ts, ⟨p, x :: rest⟩)) :
    r.whole text =
      let f := (r ⟨0, text⟩).furthest.merge (.failed .endOfText p)
      .error ⟨text, f.position, f.leaves⟩ := by
  rw [whole, andThen_of_some h]
  rfl

/-! ### Success and failure -/

/-- **A whole text is read exactly if it is the text of a phrase.** -/
theorem Reads.whole_eq_ok (hr : r.Reads S ⟨0, text⟩) : r.whole text = .ok ts ↔
    ∃ ss, S 0 ss ∧ textAll ss = text ∧ ts = ss ++ [.leaf .endOfText text.length []] := by
  constructor
  · intro h
    cases hf : (r ⟨0, text⟩).found with
    | none => simp [whole_of_none hf] at h
    | some found =>
      obtain ⟨ss, p, rest⟩ := found
      obtain ⟨hs, hrest, hpos⟩ := hr.found hf
      cases rest with
      | cons x rest => simp [whole_of_some_cons hf] at h
      | nil =>
        obtain rfl : text = textAll ss := by simpa using hrest
        obtain rfl : p = (textAll ss).length := by simpa using hpos
        rw [whole_of_some_nil hf, Except.ok.injEq] at h
        exact ⟨ss, hs, rfl, h.symm⟩
  · rintro ⟨ss, hs, rfl, rfl⟩
    obtain ⟨ts', ⟨p, rest⟩, hf, hlen⟩ := hr.longest hs List.prefix_rfl
    have hle := (hr.prefix_of_found hf).length_le
    obtain rfl : ts' = ss := hlen.resolve_right (by simpa using hle)
    obtain ⟨-, hrest, hpos⟩ := hr.found hf
    obtain rfl : rest = [] := by simpa using hrest
    obtain rfl : p = (textAll ts').length := by simpa using hpos
    exact whole_of_some_nil hf

/-- Where nothing is found, no phrase is complete. -/
theorem Reads.explains_of_none (hr : r.Reads S ⟨0, text⟩) (hf : (r ⟨0, text⟩).found = none) :
    (ParseFailure.mk text (r ⟨0, text⟩).furthest.position
      (r ⟨0, text⟩).furthest.leaves).Explains S := by
  obtain ⟨u, hu, hm⟩ := hr.furthest
  rw [Nat.zero_add] at hm
  refine .of_marks hu hm (iff_of_false ?_ ?_) fun l hl => Or.inr (hr.leaves l hl)
  · intro h
    obtain ⟨x, hx⟩ := hr.leaves _ (Furthest.mem_leaves_of_mem_leavesAt h).2
    exact Leaf.not_matches_endOfText x hx
  · rintro ⟨ts, hts, rfl⟩
    obtain ⟨_, _, hf', -⟩ := hr.longest hts hu.isPrefix
    exact absurd (hf.symm.trans hf') (by simp)

/-- Where the text goes on behind the longest phrase, the end of the text is looked for in vain; it
counts if no longer phrase has begun. -/
theorem Reads.explains_of_some_cons (hr : r.Reads S ⟨0, text⟩)
    (hf : (r ⟨0, text⟩).found = some (ts, ⟨p, x :: rest⟩)) :
    let f := (r ⟨0, text⟩).furthest.merge (.failed .endOfText p)
    (ParseFailure.mk text f.position f.leaves).Explains S := by
  obtain ⟨u, hu, hm⟩ := hr.furthest
  obtain ⟨hs, -, hpos⟩ := hr.found hf
  have htu : textAll ts <+: u := hr.prefix_of_reaches hf hu
  obtain rfl : p = (textAll ts).length := by simpa using hpos
  have he := Furthest.marks_endOfText htu.length_le
  rw [Nat.zero_add] at hm
  refine .of_marks hu ?_ ?_ ?_
  · have hboth := hm.merge he
    rwa [Set.union_empty] at hboth
  · rw [Furthest.leavesAt_merge hm.position_le he.position_le, List.mem_append]
    constructor
    · rintro (h | h)
      · obtain ⟨y, hy⟩ := hr.leaves _ (Furthest.mem_leaves_of_mem_leavesAt h).2
        exact absurd hy (Leaf.not_matches_endOfText y)
      · exact ⟨ts, hs, htu.eq_of_length (Furthest.mem_leaves_of_mem_leavesAt h).1⟩
    · rintro ⟨us, hus, rfl⟩
      -- the reach is complete, and no complete phrase is longer than the one that was found
      have hut := hr.prefix_of_phrase hf hus hu.isPrefix
      rw [hut.eq_of_length_le htu.length_le, Furthest.leavesAt_failed]
      exact Or.inr (List.mem_singleton_self _)
  · intro l hl
    rcases Furthest.mem_leaves_merge hl with h | h
    · exact Or.inr (hr.leaves l h)
    · exact Or.inl (List.mem_singleton.mp h)

/-- **Where a whole text is not read, the failure explains why.** -/
theorem Reads.explains_of_whole_eq_error (hr : r.Reads S ⟨0, text⟩)
    (h : r.whole text = .error failure) : failure.text = text ∧ failure.Explains S := by
  cases hf : (r ⟨0, text⟩).found with
  | none =>
    rw [whole_of_none hf, Except.error.injEq] at h
    exact h ▸ ⟨rfl, hr.explains_of_none hf⟩
  | some found =>
    obtain ⟨ts, p, rest⟩ := found
    cases rest with
    | nil => simp [whole_of_some_nil hf] at h
    | cons x rest =>
      rw [whole_of_some_cons hf, Except.error.injEq] at h
      exact h ▸ ⟨rfl, hr.explains_of_some_cons hf⟩

end Recognizer

end RomanArithmetic
