import RomanArithmetic.Proofs.Nesting

/-!
# Parse trees

`RomanArithmetic.ParseTree` says of a tree that it is a parse tree of some category, with the right
positions everywhere, without saying how it was found. It is a grammar of trees in the same style as
`RomanArithmetic.Derives` is one of texts: a row of operands grows at its right end, by an operator
and one more operand. Both are about categories one by one, or about the two levels of operators at
a time (`RomanArithmetic.Derives.induction_on_levels`): what joins operands is the same for both.
-/

namespace RomanArithmetic

open RomanArithmetic.Tree (textAll)

/-! ### Levels of the grammar -/

namespace Level

/-- What the operators of a level make. -/
def whole : Level → Category
  | additive => .expression
  | multiplicative => .term

/-- What the operators of a level join. -/
def part : Level → Category
  | additive => .term
  | multiplicative => .factor

/-- The rule of a row with operators of a level. -/
def rule : Level → Rule
  | additive => .expression
  | multiplicative => .term

end Level

/-- The rule of the stretches of a category. -/
def Category.rule : Category → Rule
  | expression => .expression
  | term => .term
  | factor => .factor

namespace Level

theorem rule_whole (level : Level) : level.whole.rule = level.rule := by
  cases level <;> rfl

theorem whole_injective : Function.Injective whole := by
  intro level level' h
  cases level <;> cases level' <;> first | rfl | cases h

theorem whole_ne_factor (level : Level) : level.whole ≠ .factor := by
  cases level <;> exact nofun

theorem act_rule (level : Level) (limit : DigitLimit) (items : List Item) :
    level.rule.act limit items = Item.foldAll limit items := by
  cases level <;> rfl

end Level

theorem Derives.single (level : Level) {w : List Char} {v : Int} (h : Derives level.part w v) :
    Derives level.whole w v := by
  cases level with
  | additive => exact h.term
  | multiplicative => exact h.factor

theorem Derives.concat {level : Level} {op : Operator} (hop : op ∈ level.operators)
    {s t : List Char} {a b : Int} (hs : Derives level.whole s a) (ht : Derives level.part t b) :
    Derives level.whole (s ++ op.symbol :: t) (op.apply a b) := by
  cases level with
  | additive =>
    simp only [Level.operators, List.mem_cons, List.not_mem_nil, or_false] at hop
    rcases hop with rfl | rfl
    · exact hs.add ht
    · exact hs.sub ht
  | multiplicative =>
    obtain rfl : op = .mul := by simpa [Level.operators] using hop
    exact hs.mul ht

/-- **Induction on a derivation, level by level**: what joins operands with the operators of a level
is the same for every level. -/
@[elab_as_elim]
theorem Derives.induction_on_levels
    {motive : ∀ (c : Category) (w : List Char) (v : Int), Derives c w v → Prop}
    (numeral : ∀ {w v} (hw : IsNumeral w v), motive .factor w v (.numeral hw))
    (brackets : ∀ {w v} (hw : Derives .expression w v), motive .expression w v hw →
      motive .factor ('(' :: w ++ [')']) v (.brackets hw))
    (single : ∀ (level : Level) {w v} (hw : Derives level.part w v), motive level.part w v hw →
      motive level.whole w v (hw.single level))
    (concat : ∀ {level : Level} {op : Operator} (hop : op ∈ level.operators) {s t a b}
      (hs : Derives level.whole s a) (ht : Derives level.part t b), motive level.whole s a hs →
        motive level.part t b ht →
          motive level.whole (s ++ op.symbol :: t) (op.apply a b) (.concat hop hs ht))
    {c : Category} {w : List Char} {v : Int} (h : Derives c w v) : motive c w v h := by
  induction h with
  | numeral hw => exact numeral hw
  | brackets hw ih => exact brackets hw ih
  | factor hw ih => exact single .multiplicative hw ih
  | term hw ih => exact single .additive hw ih
  | mul hs ht ihs iht => exact concat Level.mul_mem_operators hs ht ihs iht
  | add hs ht ihs iht => exact concat Level.add_mem_operators hs ht ihs iht
  | sub hs ht ihs iht => exact concat Level.sub_mem_operators hs ht ihs iht

/-- **Induction on a row** of operands with the operators of a level between them. -/
@[elab_as_elim]
theorem Derives.induction_on_row {level : Level}
    {motive : ∀ (w : List Char) (v : Int), Derives level.whole w v → Prop}
    (single : ∀ {w v} (hw : Derives level.part w v), motive w v (hw.single level))
    (concat : ∀ {op : Operator} (hop : op ∈ level.operators) {s t a b}
      (hs : Derives level.whole s a) (ht : Derives level.part t b), motive s a hs →
        motive (s ++ op.symbol :: t) (op.apply a b) (.concat hop hs ht))
    {w : List Char} {v : Int} (h : Derives level.whole w v) : motive w v h := by
  suffices ∀ c w v (h : Derives c w v) (hc : c = level.whole), motive w v (hc ▸ h) from
    this _ w v h rfl
  intro c w v h hc
  induction h using Derives.induction_on_levels with
  | numeral _ | brackets _ _ => exact absurd hc.symm level.whole_ne_factor
  | single level' hw _ =>
    obtain rfl := Level.whole_injective hc
    exact single hw
  | concat hop hs ht ihs _ =>
    obtain rfl := Level.whole_injective hc
    exact concat hop hs ht (ihs rfl)

/-! ### The grammar of trees -/

/-- **A parse tree** of some category that begins at a position. -/
inductive ParseTree : Category → Nat → Tree → Prop
  /-- A numeral is a factor. -/
  | numeral {p : Nat} {d : Numeral.Digits} : d.text ≠ [] →
      ParseTree .factor p (.node .factor p (p + d.text.length) [d.tree p])
  /-- An expression between brackets is a factor. -/
  | brackets {p : Nat} {e : Tree} : ParseTree .expression (p + 1) e →
      ParseTree .factor p (.node .factor p (p + 1 + e.text.length + 1)
        [.leaf (.symbol ['(']) p ['('], e, .leaf (.symbol [')']) (p + 1 + e.text.length) [')']])
  /-- An operand is a row by itself. -/
  | single {p : Nat} {t : Tree} (level : Level) : ParseTree level.part p t →
      ParseTree level.whole p (.node level.rule p (p + t.text.length) [t])
  /-- A row grows by an operator and an operand. -/
  | concat {p q : Nat} {row : List Tree} {t : Tree} {level : Level} {op : Operator} :
      op ∈ level.operators → ParseTree level.whole p (.node level.rule p q row) →
      ParseTree level.part (q + 1) t →
      ParseTree level.whole p (.node level.rule p (q + 1 + t.text.length)
        (row ++ [.leaf (.operator level) q [op.symbol], t]))

namespace ParseTree

variable {c : Category} {p : Nat} {t : Tree}

/-- A parse tree ends where its text ends. -/
theorem stop_eq (h : ParseTree c p t) : t.stop = p + t.text.length := by
  induction h with
  | numeral _ => simp [Tree.stop]
  | brackets _ _ =>
    simp only [Tree.stop, Tree.text, textAll, List.length_append, List.length_cons, List.length_nil]
    omega
  | single level _ _ => simp [Tree.stop]
  | concat _ _ _ ihs _ =>
    simp only [Tree.stop, Tree.text] at ihs ⊢
    simp only [Tree.textAll_append, textAll, Tree.text, List.length_append, List.length_cons,
      List.length_nil, ihs]
    omega

/-- **A parse tree is a node of its category's rule**, which begins and ends with its text. -/
theorem exists_node (h : ParseTree c p t) : ∃ ts, t = .node c.rule p (p + t.text.length) ts := by
  have hstop := h.stop_eq
  cases h with
  | numeral _ | brackets _ => exact ⟨_, congrArg (Tree.node _ p · _) hstop⟩
  | single level _ | @concat _ _ _ _ level =>
    rw [level.rule_whole]
    exact ⟨_, congrArg (Tree.node _ p · _) hstop⟩

theorem start_eq (h : ParseTree c p t) : t.start = p := by
  obtain ⟨ts, he⟩ := h.exists_node
  rw [he, Tree.start]

end ParseTree

end RomanArithmetic
