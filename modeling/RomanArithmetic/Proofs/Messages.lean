import RomanArithmetic.Proofs.Bracketed
import RomanArithmetic.Proofs.FurthestFailure
import RomanArithmetic.Proofs.OneToOne
import Mathlib.Data.List.TakeWhile

/-!
# What the message of a failure says

A failure to read a text has fields – a position, a list of expectations, the text – and a message,
which is put together from the same record on other ways: it counts lines and columns where the
fields count characters, names leaves where they describe them, lists the names in the order in
which they were tried where they sort the descriptions, and shows a piece of the text on one line.
Whatever characters the text has, the two agree (`RomanArithmetic.message_of_parse_eq_error`).

That line and column are so simple is because line feeds are no part of a calculation. They can
stand in a text, but only where it does not make sense any more, and never in front of the failure.
That names and descriptions fit together is because the leaves of the grammar are known by either
of them.
-/

namespace RomanArithmetic

/-! ### Names without repetition -/

theorem nodup_eraseDups : ∀ l : List String, l.eraseDups.Nodup
  | [] => List.nodup_nil
  | s :: l => by
    rw [List.eraseDups_cons, List.nodup_cons]
    refine ⟨fun hs => ?_, nodup_eraseDups _⟩
    have hne := (List.mem_filter.mp (List.mem_eraseDups.mp hs)).2
    simp at hne
termination_by l => l.length
decreasing_by exact Nat.lt_succ_of_le (List.length_filter_le _ _)

/-- Strictly increasing texts are different from each other. -/
theorem nodup_sortedDistinct (l : List String) : (sortedDistinct l).Nodup := by
  refine (pairwise_sortedDistinct l).imp ?_
  rintro s _ hlt rfl
  exact String.lt_irrefl s hlt

/-! ### Names and descriptions -/

/-- The expectation that a name stands for: for the operators of a level their pattern, for the end
of the text its own name, and for anything else what stands between its marks. -/
def descriptionOfTitle (title : String) : String :=
  if title = "additive_op" then "\x5c+|\x5c-"
  else if title = "multiplicative_op" then "\x5c*"
  else if title = "EOF" then "EOF"
  else String.ofList title.toList.tail.dropLast

/-- **The name of a leaf stands for its description.** -/
theorem Leaf.InGrammar.descriptionOfTitle_title {l : Leaf} (h : l.InGrammar) :
    descriptionOfTitle l.title = l.description := by
  cases h with
  | @symbol x hx =>
    have hall : Grammar.symbols.all fun y =>
        descriptionOfTitle (Leaf.symbol [y]).title = (Leaf.symbol [y]).description := by decide
    exact of_decide_eq_true (List.all_eq_true.mp hall x hx)
  | letter => decide
  | operator level => cases level <;> decide
  | endOfText => decide

namespace ParseFailure

variable {failure : ParseFailure}

theorem mem_titles {s : String} : s ∈ failure.titles ↔ ∃ l ∈ failure.leaves, l.title = s := by
  rw [titles, List.mem_eraseDups, List.mem_map]

/-- **Names and expectations correspond one to one**, if the leaves are known by their names and by
their descriptions. -/
theorem titles_perm_expected (hgrammar : ∀ l ∈ failure.leaves, l.InGrammar)
    (hcases : ∀ l ∈ failure.leaves, l = .endOfText ∨ ∃ x, l.Matches x) :
    (failure.titles.map descriptionOfTitle).Perm failure.expected := by
  have hnodup : (failure.titles.map descriptionOfTitle).Nodup := by
    refine (nodup_eraseDups _).map_on fun s hs t ht he => ?_
    obtain ⟨l, hl, rfl⟩ := mem_titles.mp hs
    obtain ⟨m, hm, rfl⟩ := mem_titles.mp ht
    rw [(hgrammar l hl).descriptionOfTitle_title, (hgrammar m hm).descriptionOfTitle_title] at he
    -- two leaves of the same description are one and the same
    have hlm := congrArg Leaf.ofDescription he
    rw [Leaf.ofDescription_description (hcases l hl),
      Leaf.ofDescription_description (hcases m hm)] at hlm
    rw [hlm]
  refine (List.perm_ext_iff_of_nodup hnodup (nodup_sortedDistinct _)).mpr fun s => ?_
  rw [List.mem_map]
  refine Iff.trans ?_ mem_expected.symm
  constructor
  · rintro ⟨_, ht, rfl⟩
    obtain ⟨l, hl, rfl⟩ := mem_titles.mp ht
    exact ⟨l, hl, (hgrammar l hl).descriptionOfTitle_title.symm⟩
  · rintro ⟨l, hl, rfl⟩
    exact ⟨l.title, mem_titles.mpr ⟨l, hl, rfl⟩, (hgrammar l hl).descriptionOfTitle_title⟩

/-! ### Line, column and context -/

theorem line_eq_one (h : '\n' ∉ failure.before) : failure.line = 1 := by
  rw [line, List.count_eq_zero.mpr h]

/-- In the first line the column counts all characters. -/
theorem column_eq (h : '\n' ∉ failure.before) : failure.column = failure.before.length + 1 := by
  have hall : failure.before.reverse.takeWhile (· ≠ '\n') = failure.before.reverse := by
    refine List.takeWhile_eq_self_iff.mpr fun x hx => ?_
    have hne : x ≠ '\n' := ne_of_mem_of_not_mem (List.mem_reverse.mp hx) h
    simpa using hne
  rw [column, hall, List.length_reverse]

/-- **The context shows what stands before the failure as it is**, if this is on one line. -/
theorem exists_context_eq (h : '\n' ∉ failure.before) (h' : '\r' ∉ failure.before) :
    ∃ right, failure.context =
      failure.before.drop (failure.position - contextWidth) ++ '*' :: right := by
  let left := failure.before.drop (failure.position - contextWidth)
  let right := (failure.text.drop failure.position).take contextWidth
  have hmem : ∀ x ∈ left, x ∈ failure.before := fun x hx => List.mem_of_mem_drop hx
  have hmap : left.map (fun c => if c = '\n' then ' ' else c) = left := by
    refine (List.map_congr_left fun x hx => ?_).trans (List.map_id left)
    exact if_neg (ne_of_mem_of_not_mem (hmem x hx) h)
  have hfilter : left.filter (· ≠ '\r') = left := by
    refine List.filter_eq_self.mpr fun x hx => ?_
    have hne : x ≠ '\r' := ne_of_mem_of_not_mem (hmem x hx) h'
    simpa using hne
  have hstar : '*' ≠ '\n' := by decide
  refine ⟨(right.map fun c => if c = '\n' then ' ' else c).filter (· ≠ '\r'), ?_⟩
  rw [context, List.map_append, List.filter_append, hmap, hfilter, List.map_cons, if_neg hstar,
    List.filter_cons_of_pos (by simp)]

/-- The message is made of the names, the line, the column and the context. -/
theorem message_eq {line column : Nat} {context : List Char} (hline : failure.line = line)
    (hcolumn : failure.column = column) (hcontext : failure.context = context) :
    failure.message = "Expected " ++ " or ".intercalate failure.titles ++ " at position (" ++
      toString line ++ ", " ++ toString column ++ ") => '" ++ String.ofList context ++ "'." := by
  subst hline hcolumn hcontext
  rfl

end ParseFailure

/-! ### The message of a failed reading -/

variable {text : List Char} {failure : ParseFailure}

/-- **What makes sense has neither line feeds nor carriage returns in it**, but letters and signs
only. -/
theorem Viable.mem_letters_append_signs (h : Viable text) {x : Char} (hx : x ∈ text) :
    x ∈ numeralLetters ++ signs := by
  obtain ⟨rest, v, hv⟩ := h.exists_derives
  exact hv.mem_letters_append_signs (List.mem_append_left rest hx)

/-- **The message of a failure agrees with its fields**, whatever characters the text has. The line
is the first and the column is the position, counted from one. The names are different from each
other and correspond one to one to the expectations. The context begins with the characters in front
of the failure, as they are and no more than ten of them, and a star. All this is what the message
shows. -/
theorem message_of_parse_eq_error (h : parse text = .error failure) :
    failure.line = 1 ∧ failure.column = failure.position + 1 ∧
    failure.titles.Nodup ∧ (failure.titles.map descriptionOfTitle).Perm failure.expected ∧
    ∃ left right, left <:+ text.take failure.position ∧ left.length = min 10 failure.position ∧
      failure.context = left ++ '*' :: right ∧
      failure.message = "Expected " ++ " or ".intercalate failure.titles ++ " at position (" ++
        toString 1 ++ ", " ++ toString (failure.position + 1) ++ ") => '" ++
          String.ofList (left ++ '*' :: right) ++ "'." := by
  obtain ⟨rfl, hexp⟩ := explains_of_parse_eq_error h
  have hviable : Viable failure.before := viable_iff.mpr hexp.reaches.begins
  have hlength : failure.before.length = failure.position := by
    rw [ParseFailure.before, List.length_take, Nat.min_eq_left hexp.position_le]
  have hfeed : '\n' ∉ failure.before := fun hx =>
    absurd (hviable.mem_letters_append_signs hx) (by decide)
  have hreturn : '\r' ∉ failure.before := fun hx =>
    absurd (hviable.mem_letters_append_signs hx) (by decide)
  have hline := ParseFailure.line_eq_one hfeed
  have hcolumn : failure.column = failure.position + 1 := by
    rw [ParseFailure.column_eq hfeed, hlength]
  obtain ⟨right, hcontext⟩ := ParseFailure.exists_context_eq hfeed hreturn
  refine ⟨hline, hcolumn, nodup_eraseDups _,
    ParseFailure.titles_perm_expected (inGrammar_of_parse_eq_error h) hexp.leaf_cases,
    failure.before.drop (failure.position - ParseFailure.contextWidth), right,
    List.drop_suffix _ _, ?_, hcontext, ParseFailure.message_eq hline hcolumn hcontext⟩
  rw [List.length_drop, hlength, ParseFailure.contextWidth]
  omega

/-- In front of line feeds that do not belong into a calculation the message speaks of the first
line. -/
theorem message_of_parse_eq_error_line_feed :
    let text := ['V', '\n', '\r', 'X']
    ∃ failure, parse text = .error failure ∧ failure.position = 1 ∧ failure.line = 1 ∧
      failure.column = 2 ∧
      failure.titles = ["'I'", "multiplicative_op", "additive_op", "EOF"] ∧
      (failure.titles.map descriptionOfTitle).Perm failure.expected ∧
      failure.context = ['V', '*', ' ', 'X'] := by
  have h : parse ['V', '\n', '\r', 'X'] = .error ⟨['V', '\n', '\r', 'X'], 1,
    [.symbol ['I'], .operator .multiplicative, .operator .additive, .endOfText]⟩ := rfl
  obtain ⟨hline, hcolumn, -, hperm, -⟩ := message_of_parse_eq_error h
  intro text
  exact ⟨_, h, rfl, hline, hcolumn, by decide, hperm, by decide⟩

end RomanArithmetic
