import RomanArithmetic.Proofs.OneToOne

/-!
# Parsing undoes rendering

An expression can be written in many ways: with more brackets than it needs, and with separators
anywhere, also inside its numerals. All of them are read as the same expression
(`RomanArithmetic.parse_eq_ok_of_renders`).

The ways to write an expression are the texts of parse trees that mean it
(`RomanArithmetic.writes_iff_renders`), so what is left to be shown is that separators are none of
the characters of a calculation.
-/

namespace RomanArithmetic

/-! ### Separators in a text -/

/-- A text with separators inserted anywhere. -/
inductive Spaced : List Char → List Char → Prop
  /-- Nothing is left of either text. -/
  | nil : Spaced [] []
  /-- A character of the text. -/
  | keep {s x : List Char} (c : Char) : Spaced s x → Spaced (c :: s) (c :: x)
  /-- A separator that is inserted. -/
  | insert {s x : List Char} {c : Char} : isSeparator c = true → Spaced s x → Spaced s (c :: x)

/-- **Inserted separators are taken out again**, if the text has none of its own. -/
theorem Spaced.stripSeparators_eq {s x : List Char} (h : Spaced s x)
    (hs : ∀ c ∈ s, isSeparator c = false) : stripSeparators x = s := by
  induction h with
  | nil => rfl
  | @keep s x c _ ih =>
    obtain ⟨hc, hs⟩ := List.forall_mem_cons.mp hs
    rw [stripSeparators, List.filter_cons_of_pos (by simp [hc])]
    exact congrArg (c :: ·) (ih hs)
  | @insert s x c hc _ ih =>
    rw [stripSeparators, List.filter_cons_of_neg (by simp [hc])]
    exact ih hs

/-- A calculation has no separators of its own. -/
theorem Derives.isSeparator_eq_false {c : Category} {w : List Char} {v : Int} (h : Derives c w v) :
    ∀ x ∈ w, isSeparator x = false := by
  intro x hx
  have hall : (numeralLetters ++ signs).all (!isSeparator ·) = true := by decide
  simpa using List.all_eq_true.mp hall x (h.mem_letters_append_signs hx)

/-! ### Renderings -/

/-- The numbers of an expression have numerals. -/
def Expr.InRange : Expr → Prop
  | number n => 1 ≤ n ∧ n ≤ 3999
  | binary _ left right => left.InRange ∧ right.InRange

/-- **Every expression over numbers that have numerals can be written**, at every place. -/
theorem Expr.InRange.exists_renders {e : Expr} (h : e.InRange) (level : Nat) :
    ∃ s, Renders level e s := by
  induction e generalizing level with
  | number n => exact ⟨_, .number h.1 h.2⟩
  | binary op left right ihl ihr =>
    obtain ⟨s, hs⟩ := ihl h.1 op.precedence
    obtain ⟨t, ht⟩ := ihr h.2 (op.precedence + 1)
    -- brackets around it make it fit anywhere
    exact ⟨_, .brackets (.binary (Nat.zero_le _) hs ht)⟩

/-- **Parsing undoes rendering.** However an expression is written, with brackets that are needed
and brackets that are not, and with separators anywhere, its parse tree writes the expression again,
and the value of the text is the value of the expression. Under a limit on written numbers the
expression has to fit the limit for this, and otherwise a number is too long. -/
theorem parse_eq_ok_of_renders {e : Expr} {s x : List Char} (hs : Renders 0 e s) (hx : Spaced s x) :
    (∃ tree, parse (stripSeparators x) = .ok tree ∧ tree.expr? = some e) ∧
    evaluate .unlimited (.text x) = .ok e.value ∧
    ∀ limit, (e.Fits limit → evaluate limit (.text x) = .ok e.value) ∧
      (¬e.Fits limit → evaluate limit (.text x) = .error (.faulty (.tooLong limit.digits))) := by
  have hw : Writes .expression s e := writes_iff_renders.mpr hs
  obtain ⟨tree, hparse, hmeans⟩ := hw.exists_parse_eq_ok
  have hstrip : stripSeparators x = s := hx.stripSeparators_eq hw.derives.isSeparator_eq_false
  have hne : x ≠ [] := by
    rintro rfl
    exact hw.derives.ne_nil hstrip.symm
  have hevaluate : ∀ limit, evaluate limit (.text x) = evaluateText limit s := fun limit => by
    rw [evaluate_text_of_ne_nil hne, hstrip]
  refine ⟨⟨tree, by rw [hstrip, hparse], hmeans.expr_eq⟩, ?_,
    fun limit => ⟨fun h => ?_, fun h => ?_⟩⟩
  · rw [hevaluate, hw.evaluateText_eq e.fits_unlimited]
  · rw [hevaluate, hw.evaluateText_eq h]
  · rw [hevaluate, hw.evaluateText_eq_error h]

/-- Brackets that are needed, brackets that are not, and a separator inside a numeral. -/
theorem parse_eq_ok_of_spaced_difference :
    let e : Expr := .binary .sub (.number 10) (.binary .sub (.number 4) (.number 1))
    let s := ['X', '-', '(', 'I', 'V', '-', '(', 'I', ')', ')']
    let x := ['X', '-', ' ', '(', 'I', '\u2003', 'V', '-', '(', 'I', ')', ')']
    Renders 0 e s ∧ Spaced s x ∧ evaluate .unlimited (.text x) = .ok 7 ∧
      ∃ tree, parse (stripSeparators x) = .ok tree ∧ tree.expr? = some e := by
  intro e s x
  have hs : Renders 0 e s := by
    have hfour : Renders 0 (.number 4) ['I', 'V'] := .number (by decide) (by decide)
    have hone : Renders 1 (.number 1) ['(', 'I', ')'] :=
      .brackets (.number (by decide) (by decide))
    have hdiff : Renders 0 (.binary .sub (.number 4) (.number 1))
        (['I', 'V'] ++ '-' :: ['(', 'I', ')']) :=
      .binary (by decide) hfour hone
    have hten : Renders 0 (.number 10) ['X'] := .number (by decide) (by decide)
    have hall : Renders 0 e
        (['X'] ++ '-' :: ('(' :: (['I', 'V'] ++ '-' :: ['(', 'I', ')']) ++ [')'])) :=
      .binary (by decide) hten (.brackets hdiff)
    exact hall
  have hx : Spaced s x := by
    repeat constructor
  obtain ⟨htree, hvalue, -⟩ := parse_eq_ok_of_renders hs hx
  exact ⟨hs, hx, hvalue, htree⟩

end RomanArithmetic
