import RomanArithmetic.Proofs.DigitLimits
import RomanArithmetic.Proofs.ParseTrees
import RomanArithmetic.Expr

/-!
# What parse trees mean

What a parse tree is worth is settled by induction on the tree and without any recognizer: it writes
an expression, its evaluation gives the value of this expression, and its text is a rendering of the
expression and has a derivation of its value (`RomanArithmetic.ParseTree.exists_means`). In the
other direction every derivation is that of a parse tree (`RomanArithmetic.Derives.exists_writes`),
and every rendering as well (`RomanArithmetic.Renders.writes`). The step that all of them share is
that of a row that grows (`RomanArithmetic.Tree.Means.concat`).

What the evaluation of a tree notes can be written under a limit exactly if the expression fits the
limit. So where the expression fits, the value is found under the limit as well
(`RomanArithmetic.Tree.Means.exists_value_eq`), and where it does not, a number is too long
(`RomanArithmetic.Tree.Means.exists_value_eq_error`).
-/

namespace RomanArithmetic

open RomanArithmetic.Tree (textAll)

/-! ### Folds that come to a value -/

namespace Operator

theorem ofItem_eq_ok_iff {key : Item} {op : Operator} :
    ofItem key = .ok op ↔ key = .symbol [op.symbol] := by
  have hnone : ofText? [] = none := rfl
  cases key with
  | number n => simp [ofItem, Item.spelling, hnone]
  | symbol w =>
    rw [ofItem, Item.spelling]
    constructor
    · intro h
      split at h
      · next op' hop =>
        obtain rfl := Except.ok.inj h
        rw [ofText?_eq_some_iff.mp hop]
      · cases h
    · rintro ⟨⟩
      rw [ofText?_eq_some_iff.mpr rfl]

theorem applyItems_number (op : Operator) (a b : Int) :
    op.applyItems (.number a) (.number b) = .ok (.number (op.apply a b)) := by
  cases op <;> rfl

end Operator

/-- An operator with the two numbers that it is applied to. -/
structure Application where
  operator : Operator
  left : Int
  right : Int
deriving DecidableEq, Repr

namespace Application

/-- What comes out. -/
def result (a : Application) : Int :=
  a.operator.apply a.left a.right

/-- The step that notes it. -/
def step (a : Application) : Step :=
  .fold (.number a.left) (.symbol [a.operator.symbol]) (.number a.right) (.number a.result)

theorem writable_step_iff {limit : DigitLimit} {a : Application} : a.step.Writable limit ↔
    limit.Allows a.left ∧ limit.Allows a.right ∧ limit.Allows a.result := by
  simp [step, Step.Writable, Item.Writable]

end Application

namespace Item

variable {limit : DigitLimit} {left value key right : Item} {rest s t : List Item}
  {steps : List Step}

/-- **One operation of a fold that comes to a value.** -/
theorem foldFrom_cons_eq_ok_iff :
    foldFrom limit left (key :: right :: rest) = ⟨.ok value, steps⟩ ↔
      ∃ op result more, Operator.ofItem key = .ok op ∧ op.applyItems left right = .ok result ∧
        Step.Writable limit (.fold left key right result) ∧
        foldFrom limit result rest = ⟨.ok value, more⟩ ∧
        steps = .fold left key right result :: more := by
  rw [foldFrom]
  simp only [Run.bind_eq_ok_iff, Run.ofExcept_eq_ok_iff, Run.note_eq_ok_iff]
  constructor
  · rintro ⟨op, _, _, ⟨hkey, rfl⟩,
      ⟨result, _, _, ⟨happly, rfl⟩, ⟨_, _, more, ⟨hw, rfl⟩, hrest, rfl⟩, rfl⟩, rfl⟩
    exact ⟨op, result, more, hkey, happly, hw, hrest, rfl⟩
  · rintro ⟨op, result, more, hkey, happly, hw, hrest, rfl⟩
    exact ⟨op, [], _, ⟨hkey, rfl⟩, ⟨result, [], _, ⟨happly, rfl⟩,
      ⟨(), _, more, ⟨hw, rfl⟩, hrest, rfl⟩, rfl⟩, rfl⟩

/-- **A fold goes on where it stopped**: what is appended to the items is folded onto the value that
they came to. -/
theorem foldFrom_append (h : foldFrom limit left s = ⟨.ok value, steps⟩) :
    foldFrom limit left (s ++ t) =
      ⟨(foldFrom limit value t).outcome, steps ++ (foldFrom limit value t).steps⟩ := by
  induction left, s using foldFrom.induct generalizing steps with
  | case1 left =>
    obtain ⟨⟨⟩, rfl⟩ := Run.mk.inj h
    rfl
  | case2 left key => cases (Run.mk.inj h).1
  | case3 left key right rest ih =>
    obtain ⟨op, result, more, hkey, happly, hw, hrest, rfl⟩ := foldFrom_cons_eq_ok_iff.mp h
    simp only [List.cons_append, foldFrom, hkey, happly, Run.ofExcept, Run.mk_ok_bind,
      Run.note_of_writable hw, ih result hrest, List.nil_append]

theorem foldFrom_pair (op : Operator) (a b : Int)
    (hw : (Application.step ⟨op, a, b⟩).Writable limit) :
    foldFrom limit (.number a) [.symbol [op.symbol], .number b] =
      ⟨.ok (.number (op.apply a b)), [Application.step ⟨op, a, b⟩]⟩ :=
  foldFrom_cons_eq_ok_iff.mpr ⟨op, _, [], Operator.ofItem_eq_ok_iff.mpr rfl,
    op.applyItems_number a b, hw, rfl, rfl⟩

theorem foldAll_concat {items : List Item} (op : Operator) {a : Int} (b : Int)
    (hw : (Application.step ⟨op, a, b⟩).Writable limit)
    (h : foldAll limit items = ⟨.ok (.number a), steps⟩) :
    foldAll limit (items ++ [.symbol [op.symbol], .number b]) =
      ⟨.ok (.number (op.apply a b)), steps ++ [Application.step ⟨op, a, b⟩]⟩ := by
  cases items with
  | nil => cases (Run.mk.inj h).1
  | cons first rest =>
    rw [List.cons_append, foldAll, foldFrom_append h, foldFrom_pair op a b hw]

end Item

/-! ### The nodes of a parse tree -/

namespace Tree

variable {limit : DigitLimit} {t : Tree} {row : List Tree} {p q r : Nat} {steps steps' : List Step}

/-- **A node that passes a number on** comes to what its only part comes to, with the same steps. -/
theorem evaluate_singleton {R : Rule} {v : Int}
    (hR : R.act limit [.number v] = ⟨.ok (.number v), []⟩)
    (h : t.evaluate limit = ⟨.ok (.number v), steps⟩) :
    (node R p q [t]).evaluate limit = ⟨.ok (.number v), steps⟩ := by
  have hall : evaluateAll limit [t] = ⟨.ok [.number v], steps⟩ := by simp [evaluateAll, h]
  exact evaluate_node_eq_ok_iff.mpr ⟨_, _, _, hall, hR, (List.append_nil _).symm⟩

/-- **A row that grows** applies one more operator, when all that it has had to do before is done
and the operand behind the operator is known. -/
theorem evaluate_concat {level : Level} (op : Operator) {a b : Int}
    (hw : (Application.step ⟨op, a, b⟩).Writable limit)
    (h : (node level.rule p q row).evaluate limit = ⟨.ok (.number a), steps⟩)
    (ht : t.evaluate limit = ⟨.ok (.number b), steps'⟩) :
    ∃ before own, steps = before ++ own ∧
      (node level.rule p r (row ++ [leaf (.operator level) q [op.symbol], t])).evaluate limit =
        ⟨.ok (.number (op.apply a b)),
          before ++ steps' ++ (own ++ [Application.step ⟨op, a, b⟩])⟩ := by
  obtain ⟨items, before, own, hall, hact, rfl⟩ := evaluate_node_eq_ok_iff.mp h
  rw [Level.act_rule] at hact
  have hpair : evaluateAll limit [leaf (.operator level) q [op.symbol], t] =
      ⟨.ok [.symbol [op.symbol], .number b], steps'⟩ := by
    simp [evaluateAll, evaluate, ht]
  exact ⟨before, own, rfl, evaluate_node_eq_ok_iff.mpr ⟨_, _, _, evaluateAll_append hall hpair,
    (Level.act_rule level limit _).trans (Item.foldAll_concat op b hw hact), rfl⟩⟩

/-- Brackets come to what is between them. -/
theorem evaluate_brackets {l l' : Leaf} {x y : List Char} {r' : Nat} {v : Int}
    (h : t.evaluate limit = ⟨.ok (.number v), steps⟩) :
    (node .factor p q [leaf l r x, t, leaf l' r' y]).evaluate limit = ⟨.ok (.number v), steps⟩ := by
  have hall : evaluateAll limit [leaf l r x, t, leaf l' r' y] =
      ⟨.ok [.symbol x, .number v, .symbol y], steps⟩ := by
    simp [evaluateAll, evaluate, h]
  exact evaluate_node_eq_ok_iff.mpr ⟨_, _, _, hall, rfl, (List.append_nil _).symm⟩

/-- A calculation comes to what stands before the end of the text. -/
theorem evaluate_calculation {v : Int} (h : t.evaluate limit = ⟨.ok (.number v), steps⟩) :
    (node .calculation p q [t, leaf .endOfText r []]).evaluate limit =
      ⟨.ok (.number v), steps⟩ := by
  have hall : evaluateAll limit [t, leaf .endOfText r []] =
      ⟨.ok [.number v, .symbol []], steps⟩ := by
    simp [evaluateAll, evaluate, h]
  exact evaluate_node_eq_ok_iff.mpr ⟨_, _, _, hall, rfl, (List.append_nil _).symm⟩

theorem value_eq_ok_iff {v : Int} :
    t.value limit = ⟨.ok v, steps⟩ ↔ t.evaluate limit = ⟨.ok (.number v), steps⟩ := by
  rw [value, Run.bind_eq_ok_iff]
  constructor
  · rintro ⟨item, before, own, h, hnumber, rfl⟩
    cases item with
    | number n =>
      obtain ⟨⟨⟩, rfl⟩ := Run.mk.inj hnumber
      rw [h, List.append_nil]
    | symbol _ => cases (Run.mk.inj hnumber).1
  · intro h
    exact ⟨.number v, steps, [], h, rfl, (List.append_nil _).symm⟩

/-- **A row of expressions goes on where it stopped.** -/
theorem exprFrom?_append {e : Expr} {us : List Tree} : ∀ {left : Expr} {ts : List Tree},
    exprFrom? left ts = some e → exprFrom? left (ts ++ us) = exprFrom? e us
  | left, [], h => by
    obtain rfl : left = e := by simpa [exprFrom?] using h
    rfl
  | left, [op], h => by simp [exprFrom?] at h
  | left, op :: right :: rest, h => by
    rw [exprFrom?] at h
    split at h
    · next hop hright =>
      rw [List.cons_append, List.cons_append, exprFrom?]
      simp only [hop, hright]
      exact exprFrom?_append h
    · exact absurd h (by simp)

theorem expr?_row (level : Level) (p q : Nat) (first : Tree) (rest : List Tree) :
    (node level.rule p q (first :: rest)).expr? = first.expr?.bind (exprFrom? · rest) := by
  cases level <;> rfl

end Tree

/-! ### What a tree means -/

/-- **A tree means an expression**: it writes the expression, its evaluation comes to the value of
the expression, and what the evaluation notes can be written as far as the expression fits. -/
structure Tree.Means (t : Tree) (e : Expr) : Prop where
  expr_eq : t.expr? = some e
  evaluate_eq : ∃ steps, t.evaluate .unlimited = ⟨.ok (.number e.value), steps⟩ ∧
    ∀ limit, (∀ step ∈ steps, step.Writable limit) ↔ e.Fits limit

namespace Tree.Means

variable {limit : DigitLimit} {t : Tree} {row : List Tree} {p q r : Nat} {e f : Expr}

/-- An operand alone means what it means in a row of its own. -/
theorem single (level : Level) (h : t.Means e) : (node level.rule p q [t]).Means e := by
  obtain ⟨he, steps, hv, hfits⟩ := h
  refine ⟨?_, steps, evaluate_singleton (level.act_rule _ _) hv, hfits⟩
  cases level <;> simp [Level.rule, expr?, he, exprFrom?]

/-- **A row that grows** means the operator applied to what it meant before and to the operand. -/
theorem concat {level : Level} (op : Operator) (h : (node level.rule p q row).Means e)
    (ht : t.Means f) :
    (node level.rule p r (row ++ [leaf (.operator level) q [op.symbol], t])).Means
      (.binary op e f) := by
  obtain ⟨he, steps, hv, hfits⟩ := h
  obtain ⟨hf, steps', hv', hfits'⟩ := ht
  have hop : (leaf (.operator level) q [op.symbol]).operator? = some op :=
    Operator.ofText?_eq_some_iff.mpr rfl
  obtain ⟨before, own, rfl, hvalue⟩ :=
    evaluate_concat (r := r) op (Step.writable_unlimited _) hv hv'
  refine ⟨?_, _, hvalue, fun limit => ?_⟩
  · cases row with
    | nil =>
      exact absurd hv (by simp [evaluate, evaluateAll, Level.act_rule, Item.foldAll, Run.fail])
    | cons first rest =>
      rw [expr?_row] at he
      obtain ⟨left, hleft, hrest⟩ := Option.bind_eq_some_iff.mp he
      rw [List.cons_append, expr?_row, hleft, Option.bind_some, exprFrom?_append hrest]
      simp [exprFrom?, hop, hf]
  · have hrow := hfits limit
    have hoperand := hfits' limit
    have happlication :=
      @Application.writable_step_iff limit ⟨op, e.value, f.value⟩
    rw [List.forall_mem_append] at hrow
    simp only [List.forall_mem_append, List.forall_mem_singleton, Expr.Fits, ← hrow, ← hoperand,
      happlication, Application.result]
    tauto

/-- Brackets mean what is between them. -/
theorem brackets {l l' : Leaf} {x y : List Char} {r' : Nat} (h : t.Means e) :
    (node .factor p q [leaf l r x, t, leaf l' r' y]).Means e := by
  obtain ⟨he, steps, hv, hfits⟩ := h
  exact ⟨by rw [expr?, he], steps, evaluate_brackets hv, hfits⟩

/-- **A numeral means its number**, alone and as a factor. -/
theorem numeral (d : Numeral.Digits) (p q r : Nat) :
    (node .factor p q [d.tree r]).Means (.number d.value.toNat) := by
  obtain ⟨steps, hv⟩ := d.exists_evaluate_tree r
  have hvalue : ((d.value.toNat : Nat) : Int) = d.value := Int.toNat_of_nonneg d.value_nonneg
  refine ⟨?_, steps, ?_, fun limit => iff_of_true ?_ trivial⟩
  · have hnode := value_eq_ok_iff.mpr (hv .unlimited)
    rw [Numeral.Digits.tree] at hnode ⊢
    simp [expr?, hnode]
  · rw [Expr.value, hvalue]
    exact evaluate_singleton rfl (hv _)
  · exact ((evaluate_eq_ok_iff limit).mp (hv limit)).2

/-- A calculation means what its expression means. -/
theorem calculation (h : t.Means e) :
    (node .calculation p q [t, leaf .endOfText r []]).Means e := by
  obtain ⟨he, steps, hv, hfits⟩ := h
  have hexpr : (node .calculation p q [t, leaf .endOfText r []]).expr? = t.expr? := rfl
  exact ⟨hexpr.trans he, steps, evaluate_calculation hv, hfits⟩

/-- **Under a limit that the expression fits**, the value of the tree is that of the expression. -/
theorem exists_value_eq (h : t.Means e) (hfits : e.Fits limit) :
    ∃ steps, t.value limit = ⟨.ok e.value, steps⟩ := by
  obtain ⟨-, steps, hv, hsteps⟩ := h
  exact ⟨steps, value_of_writable (value_eq_ok_iff.mpr hv) ((hsteps limit).mpr hfits)⟩

/-- **Under a limit that the expression does not fit**, a number is too long. -/
theorem exists_value_eq_error (h : t.Means e) (hfits : ¬e.Fits limit) :
    ∃ steps, t.value limit = ⟨.error (.tooLong limit.digits), steps⟩ := by
  obtain ⟨-, steps, hv, hsteps⟩ := h
  exact ⟨_, value_of_not_writable (value_eq_ok_iff.mpr hv) (mt (hsteps limit).mp hfits)⟩

end Tree.Means

/-! ### Categories and levels of tightness -/

/-- How tight the stretches of a category are, as renderings demand it. -/
def Category.tightness : Category → Nat
  | expression => 0
  | term => 1
  | factor => 2

namespace Level

theorem tightness_whole (level : Level) : level.whole.tightness + 1 = level.part.tightness := by
  cases level <;> rfl

theorem precedence_eq {level : Level} {op : Operator} (hop : op ∈ level.operators) :
    op.precedence = level.whole.tightness := by
  cases level with
  | additive =>
    simp only [operators, List.mem_cons, List.not_mem_nil, or_false] at hop
    rcases hop with rfl | rfl <;> decide
  | multiplicative =>
    obtain rfl : op = .mul := by simpa [operators] using hop
    decide

end Level

theorem Operator.exists_level (op : Operator) : ∃ level : Level, op ∈ level.operators := by
  cases op with
  | add => exact ⟨_, Level.add_mem_operators⟩
  | sub => exact ⟨_, Level.sub_mem_operators⟩
  | mul => exact ⟨_, Level.mul_mem_operators⟩

/-- What is tighter than a place demands may stand there as well. -/
theorem Renders.of_le {m n : Nat} {e : Expr} {w : List Char} (h : Renders n e w) (hmn : m ≤ n) :
    Renders m e w := by
  cases h with
  | number hpos hle => exact .number hpos hle
  | binary hlevel hs ht => exact .binary (hmn.trans hlevel) hs ht
  | brackets hs => exact .brackets hs

/-- **A parse tree renders an expression** as its category demands it. -/
theorem ParseTree.exists_means {c : Category} {p : Nat} {t : Tree} (h : ParseTree c p t) :
    ∃ e, t.Means e ∧ Derives c t.text e.value ∧ Renders c.tightness e t.text := by
  induction h with
  | @numeral p d hne =>
    have hnonneg := Int.toNat_of_nonneg d.value_nonneg
    have htext : (Tree.node .factor p (p + d.text.length) [d.tree p]).text = d.text := by
      simp
    have hnumeral : IsNumeral d.text d.value := Numeral.isNumeral_iff.mpr ⟨d, rfl, hne, rfl⟩
    obtain ⟨hpos, hle, hspell⟩ := Numeral.isNumeral_iff_eq_ofNat.mp hnumeral
    refine ⟨_, Tree.Means.numeral d p _ p, .numeral ?_, ?_⟩
    · rwa [Expr.value, hnonneg, htext]
    · rw [htext, hspell]
      exact .number (by omega) (by omega)
  | @brackets p inner _ ih =>
    obtain ⟨e, he, hd, hr⟩ := ih
    have htext : textAll [.leaf (.symbol ['(']) p ['('], inner,
        .leaf (.symbol [')']) (p + 1 + inner.text.length) [')']] = '(' :: inner.text ++ [')'] := by
      simp
    refine ⟨e, he.brackets, ?_⟩
    rw [Tree.text, htext]
    exact ⟨hd.brackets, hr.brackets⟩
  | single level _ ih =>
    obtain ⟨e, he, hd, hr⟩ := ih
    have hle : level.whole.tightness ≤ level.part.tightness := by
      rw [← level.tightness_whole]
      exact Nat.le_succ _
    refine ⟨e, he.single level, ?_⟩
    rw [Tree.text, textAll, textAll, List.append_nil]
    exact ⟨hd.single level, hr.of_le hle⟩
  | @concat p q row t level op hop _ _ ihs iht =>
    obtain ⟨e, he, hd, hr⟩ := ihs
    obtain ⟨f, hf, hd', hr'⟩ := iht
    have htext : textAll (row ++ [.leaf (.operator level) q [op.symbol], t]) =
        textAll row ++ op.symbol :: t.text := by
      simp
    refine ⟨.binary op e f, he.concat op hf, ?_⟩
    rw [Tree.text, htext]
    rw [← level.tightness_whole, ← Level.precedence_eq hop] at hr'
    rw [← Level.precedence_eq hop] at hr ⊢
    exact ⟨Derives.concat hop hd hd', .binary le_rfl hr hr'⟩

/-! ### What a text writes -/

/-- **A text writes an expression** as a stretch of some category: wherever it stands, it is the
text of a parse tree that means the expression. -/
def Writes (c : Category) (w : List Char) (e : Expr) : Prop :=
  ∀ p, ∃ t, ParseTree c p t ∧ t.text = w ∧ t.Means e

namespace Writes

variable {c : Category} {v w : List Char} {e f : Expr}

theorem numeral {d : Numeral.Digits} (h : d.text ≠ []) :
    Writes .factor d.text (.number d.value.toNat) := fun p =>
  ⟨_, .numeral h, by simp, Tree.Means.numeral d p _ p⟩

theorem brackets (h : Writes .expression w e) : Writes .factor ('(' :: w ++ [')']) e := by
  intro p
  obtain ⟨t, ht, rfl, he⟩ := h (p + 1)
  exact ⟨_, .brackets ht, by simp, he.brackets⟩

theorem single (level : Level) (h : Writes level.part w e) : Writes level.whole w e := by
  intro p
  obtain ⟨t, ht, rfl, he⟩ := h p
  exact ⟨_, .single level ht, by simp, he.single level⟩

theorem concat {level : Level} {op : Operator} (hop : op ∈ level.operators)
    (hv : Writes level.whole v e) (hw : Writes level.part w f) :
    Writes level.whole (v ++ op.symbol :: w) (.binary op e f) := by
  intro p
  obtain ⟨t, ht, rfl, he⟩ := hv p
  obtain ⟨row, hrow⟩ := ht.exists_node
  rw [level.rule_whole] at hrow
  obtain ⟨u, hu, rfl, hf⟩ := hw (p + t.text.length + 1)
  have htext : textAll row = t.text := by rw [hrow, Tree.text]
  rw [hrow] at ht he
  exact ⟨_, .concat hop ht hu, by simp [htext],
    he.concat op hf⟩

/-- An operator between two texts that write something applies to the values. -/
theorem exists_concat {level : Level} {op : Operator} (hop : op ∈ level.operators) {a b : Int}
    (hv : ∃ e, Writes level.whole v e ∧ e.value = a)
    (hw : ∃ f, Writes level.part w f ∧ f.value = b) :
    ∃ g, Writes level.whole (v ++ op.symbol :: w) g ∧ g.value = op.apply a b := by
  obtain ⟨e, he, rfl⟩ := hv
  obtain ⟨f, hf, rfl⟩ := hw
  exact ⟨_, he.concat hop hf, rfl⟩

/-- **What a text writes it renders**, and it has a derivation of the value. -/
theorem derives_and_renders (h : Writes c w e) :
    Derives c w e.value ∧ Renders c.tightness e w := by
  obtain ⟨t, ht, rfl, he⟩ := h 0
  obtain ⟨e', he', hd, hr⟩ := ht.exists_means
  obtain rfl : e = e' := Option.some.inj (he.expr_eq.symm.trans he'.expr_eq)
  exact ⟨hd, hr⟩

theorem derives (h : Writes c w e) : Derives c w e.value :=
  h.derives_and_renders.1

theorem renders (h : Writes c w e) : Renders c.tightness e w :=
  h.derives_and_renders.2

/-- What is tighter than a place demands may stand there as well. -/
theorem of_tightness_le {c' : Category} (h : Writes c w e) (hle : c'.tightness ≤ c.tightness) :
    Writes c' w e := by
  cases c' with
  | expression =>
    cases c with
    | expression => exact h
    | term => exact h.single .additive
    | factor => exact (h.single .multiplicative).single .additive
  | term =>
    cases c with
    | expression => exact absurd hle (by decide)
    | term => exact h
    | factor => exact h.single .multiplicative
  | factor =>
    cases c with
    | expression | term => exact absurd hle (by decide)
    | factor => exact h

end Writes

/-- **Every derivation is that of a parse tree**, with the same value. -/
theorem Derives.exists_writes {c : Category} {w : List Char} {v : Int} (h : Derives c w v) :
    ∃ e, Writes c w e ∧ e.value = v := by
  induction h with
  | numeral hw =>
    obtain ⟨d, rfl, hne, rfl⟩ := Numeral.isNumeral_iff.mp hw
    exact ⟨_, .numeral hne, Int.toNat_of_nonneg d.value_nonneg⟩
  | brackets _ ih =>
    obtain ⟨e, he, hv⟩ := ih
    exact ⟨e, he.brackets, hv⟩
  | factor _ ih =>
    obtain ⟨e, he, hv⟩ := ih
    exact ⟨e, he.single .multiplicative, hv⟩
  | term _ ih =>
    obtain ⟨e, he, hv⟩ := ih
    exact ⟨e, he.single .additive, hv⟩
  | mul _ _ ihs iht => exact Writes.exists_concat Level.mul_mem_operators ihs iht
  | add _ _ ihs iht => exact Writes.exists_concat Level.add_mem_operators ihs iht
  | sub _ _ ihs iht => exact Writes.exists_concat Level.sub_mem_operators ihs iht

/-- A number is written as a factor. -/
theorem writes_number {n : Nat} (hpos : 1 ≤ n) (hle : n ≤ 3999) :
    Writes .factor (Numeral.ofNat n) (.number n) := by
  have hvalue := Numeral.Digits.value_ofNat hle
  have hne : (Numeral.Digits.ofNat n hle).text ≠ [] := by
    intro hnil
    have := Numeral.Digits.value_eq_zero_of_text_eq_nil hnil
    omega
  have h := Writes.numeral hne
  rwa [Numeral.Digits.text_ofNat, hvalue, Int.toNat_natCast] at h

/-- **A rendering writes its expression**, as a stretch of every category that is loose enough. -/
theorem Renders.writes {n : Nat} {e : Expr} {w : List Char} (h : Renders n e w) :
    ∀ c : Category, c.tightness ≤ n → Writes c w e := by
  have hfactor : ∀ c : Category, c.tightness ≤ Category.factor.tightness := fun c => by
    cases c <;> decide
  induction h with
  | number hpos hle => exact fun c _ => (writes_number hpos hle).of_tightness_le (hfactor c)
  | @binary n op left right s t hlevel _ _ ihs iht =>
    intro c hc
    obtain ⟨level, hop⟩ := op.exists_level
    have hprecedence := Level.precedence_eq hop
    have hpart : level.part.tightness ≤ op.precedence + 1 := by
      rw [hprecedence, level.tightness_whole]
    have hrow := (ihs level.whole hprecedence.ge).concat hop (iht level.part hpart)
    exact hrow.of_tightness_le ((hc.trans hlevel).trans hprecedence.le)
  | brackets _ ih =>
    intro c _
    exact (ih .expression le_rfl).brackets.of_tightness_le (hfactor c)

/-- **To render an expression is to write it.** -/
theorem writes_iff_renders {c : Category} {w : List Char} {e : Expr} :
    Writes c w e ↔ Renders c.tightness e w :=
  ⟨Writes.renders, fun h => h.writes c le_rfl⟩

end RomanArithmetic
