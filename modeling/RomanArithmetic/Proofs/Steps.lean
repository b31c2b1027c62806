import RomanArithmetic.Proofs.Outcomes
import RomanArithmetic.Proofs.TreeShape

/-!
# The steps of an evaluation

An evaluation notes its steps: the value of a decimal place, and an operator that was applied. This
file says which steps there are, for every parse tree.

The *applications* account for the operators of the text, each of them once
(`RomanArithmetic.Accounts`). A row notes its applications behind all that its operands note, so the
applications of a row are not next to each other, and when the row grows, the notes of the new
operand come between them. The induction is therefore on the tree and not on the text, and it keeps
the operators as a multiset. What the row comes to is the result of its last application; all rules
above it that have a single part pass this on.

The *places* are noted in the order in which they stand in the text
(`RomanArithmetic.Tree.filter_isPlace_of_evaluate`, `RomanArithmetic.Tree.inOrder_digits`). This has
nothing to do with the grammar: it is true of every tree with joined parts in which nothing but
symbols stands in a place.
-/

namespace RomanArithmetic

open RomanArithmetic.Tree (textAll)

/-! ### Two kinds of steps -/

namespace Step

/-- Whether the step applies an operator. -/
def isFold : Step → Bool
  | fold _ _ _ _ => true
  | place _ _ _ => false

/-- Whether the step values a place. -/
def isPlace : Step → Bool
  | place _ _ _ => true
  | fold _ _ _ _ => false

end Step

namespace Rule

/-- The places whose values are noted. The thousands are counted without a note. -/
def noted? : Rule → Option Place
  | hundreds => some Place.hundreds
  | tens => some Place.tens
  | ones => some Place.ones
  | _ => none

/-- The note of a place that is written as a text. -/
def note? (R : Rule) (w : List Char) : Option Step :=
  R.noted?.map fun place => .place R w (place.value w)

theorem isPlace_of_noted? {R : Rule} {place : Place} (h : R.noted? = some place) :
    R.isPlace = true := by
  cases R with
  | thousands | hundreds | tens | ones => rfl
  | numeral | factor | term | expression | calculation => cases h

end Rule

variable {limit : DigitLimit} {R : Rule} {items : List Item} {item : Item} {own : List Step}

/-- A row notes nothing but applications. -/
theorem Item.isFold_of_foldFrom {left : Item} (h : foldFrom limit left items = ⟨.ok item, own⟩) :
    ∀ s ∈ own, s.isFold = true := by
  induction left, items using foldFrom.induct generalizing own with
  | case1 left =>
    obtain ⟨-, rfl⟩ := Run.mk.inj h
    exact List.forall_mem_nil _
  | case2 left key => cases (Run.mk.inj h).1
  | case3 left key right rest ih =>
    obtain ⟨op, result, more, -, -, -, hrest, rfl⟩ := foldFrom_cons_eq_ok_iff.mp h
    exact List.forall_mem_cons.mpr ⟨rfl, ih result hrest⟩

/-- A place notes its value. -/
theorem Rule.own_of_valued {place : Place} {w : List Char}
    (h : act.valued limit R place w = ⟨.ok item, own⟩) : own = [.place R w (place.value w)] := by
  obtain ⟨_, _, _, hnote, hpure, rfl⟩ := Run.bind_eq_ok_iff.mp h
  obtain ⟨-, rfl⟩ := Run.note_eq_ok_iff.mp hnote
  obtain ⟨-, rfl⟩ := Run.mk.inj hpure
  rfl

/-- **What the action of a rule notes itself**: a row its applications, and any other rule the value
of a place, if it is the rule of a noted place, and otherwise nothing. -/
theorem Rule.own_steps (h : R.act limit items = ⟨.ok item, own⟩) :
    (∃ level : Level, R = level.rule ∧ ∀ s ∈ own, s.isFold = true) ∨
      ((∀ level : Level, R ≠ level.rule) ∧
        own = (R.note? (items.flatMap Item.spelling)).toList) := by
  have hfold : Item.foldAll limit items = ⟨.ok item, own⟩ → ∀ s ∈ own, s.isFold = true := by
    intro hall
    cases items with
    | nil => cases (Run.mk.inj hall).1
    | cons first rest => exact Item.isFold_of_foldFrom hall
  cases R with
  | term => exact Or.inl ⟨.multiplicative, rfl, hfold h⟩
  | expression => exact Or.inl ⟨.additive, rfl, hfold h⟩
  | hundreds | tens | ones =>
    exact Or.inr ⟨fun level => by cases level <;> decide, own_of_valued h⟩
  | thousands | numeral =>
    exact Or.inr ⟨fun level => by cases level <;> decide, (Run.mk.inj h).2.symm⟩
  | factor =>
    refine Or.inr ⟨fun level => by cases level <;> decide, ?_⟩
    rw [Rule.act] at h
    split at h
    · cases (Run.mk.inj h).1
    · exact (Run.mk.inj h).2.symm
  | calculation =>
    refine Or.inr ⟨fun level => by cases level <;> decide, ?_⟩
    cases items with
    | nil => cases (Run.mk.inj h).1
    | cons first rest => exact (Run.mk.inj h).2.symm

/-- A rule that makes no row applies no operator. -/
theorem Rule.filter_isFold_own (hR : ∀ level : Level, R ≠ level.rule)
    (h : R.act limit items = ⟨.ok item, own⟩) : own.filter Step.isFold = [] := by
  rcases Rule.own_steps h with ⟨level, hlevel, -⟩ | ⟨-, rfl⟩
  · exact absurd hlevel (hR level)
  · rw [Rule.note?]
    cases R.noted? <;> rfl

/-- The only place that a rule notes is its own. -/
theorem Rule.filter_isPlace_own (h : R.act limit items = ⟨.ok item, own⟩) :
    own.filter Step.isPlace = (R.note? (items.flatMap Item.spelling)).toList := by
  rcases Rule.own_steps h with ⟨level, rfl, hown⟩ | ⟨-, rfl⟩
  · have hnote : level.rule.note? (items.flatMap Item.spelling) = none := by cases level <;> rfl
    rw [hnote]
    refine List.filter_eq_nil_iff.mpr fun s hs hplace => ?_
    cases s with
    | place _ _ _ => exact absurd (hown _ hs) Bool.false_ne_true
    | fold _ _ _ _ => exact absurd hplace Bool.false_ne_true
  · rw [Rule.note?]
    cases R.noted? <;> rfl

/-! ### Places in the order of the text -/

namespace Tree

variable {t : Tree} {ss ts : List Tree} {p q m : Nat} {steps : List Step}

/-- The note of a node. -/
def note? : Tree → Option Step
  | leaf _ _ _ => none
  | node R _ _ ts => R.note? (textAll ts)

/-- **The nodes whose values are noted**, those of the hundreds, the tens and the ones, in the order
in which they are visited. -/
def digits (t : Tree) : List Tree :=
  t.nodes.filter (·.note?.isSome)

theorem digits_node (R : Rule) (p q : Nat) (ts : List Tree) : (node R p q ts).digits =
    if (node R p q ts).note?.isSome then node R p q ts :: ts.flatMap digits
    else ts.flatMap digits := by
  rw [digits, nodes_node, List.filter_cons, List.filter_flatMap]
  rfl

theorem flatMap_digits_symbols (p : Nat) (w : List Char) : (symbols p w).flatMap digits = [] := by
  induction w generalizing p with
  | nil => rfl
  | cons x w ih => exact ih (p + 1)

/-- **A noted node has no other below it**, because nothing but symbols stands in a place. -/
theorem Spelled.digits_cases (h : (node R p q ts).Spelled) :
    R.noted? = none ∧ (node R p q ts).digits = ts.flatMap digits ∨
      ∃ w, ts = symbols p w ∧ (node R p q ts).digits = [node R p q ts] := by
  rw [digits_node, note?, Rule.note?]
  cases hR : R.noted? with
  | none => exact Or.inl ⟨rfl, rfl⟩
  | some place =>
    obtain ⟨w, rfl⟩ := h (Rule.isPlace_of_noted? hR)
    exact Or.inr ⟨w, rfl, by simp [flatMap_digits_symbols]⟩

mutual

/-- **The places are noted in the order in which they are visited.** -/
theorem filter_isPlace_of_evaluate : ∀ {t : Tree} {item : Item} {steps : List Step},
    t.Everywhere Spelled → t.evaluate limit = ⟨.ok item, steps⟩ →
      steps.filter Step.isPlace = t.digits.filterMap note?
  | leaf _ _ _, _, _, _, h => by
    obtain ⟨-, rfl⟩ := Run.mk.inj h
    rfl
  | .node R p q ts, _, _, hs, h => by
    obtain ⟨items, before, own, hall, hact, rfl⟩ := evaluate_node_eq_ok_iff.mp h
    rw [List.filter_append, Rule.filter_isPlace_own hact]
    rcases Spelled.digits_cases hs.1 with ⟨hR, hdigits⟩ | ⟨w, rfl, hdigits⟩
    · rw [hdigits, filter_isPlace_of_evaluateAll hs.2 hall, Rule.note?, hR]
      exact List.append_nil _
    · obtain ⟨rfl, rfl⟩ : (w.map fun x => .symbol [x]) = items ∧ [] = before := by
        simpa [evaluateAll_symbols] using hall
      rw [hdigits, Item.flatMap_spelling_symbols, List.filter_nil, List.nil_append,
        List.filterMap_cons, note?, textAll_symbols]
      cases R.note? w <;> rfl

theorem filter_isPlace_of_evaluateAll : ∀ {ts : List Tree} {items : List Item} {steps : List Step},
    EverywhereAll Spelled ts → evaluateAll limit ts = ⟨.ok items, steps⟩ →
      steps.filter Step.isPlace = (ts.flatMap digits).filterMap note?
  | [], _, _, _, h => by
    obtain ⟨-, rfl⟩ := Run.mk.inj h
    rfl
  | _ :: _, _, _, hs, h => by
    obtain ⟨_, _, _, _, ht, hts, -, rfl⟩ := evaluateAll_cons_eq_ok_iff.mp h
    rw [List.filter_append, filter_isPlace_of_evaluate hs.1 ht,
      filter_isPlace_of_evaluateAll hs.2 hts, List.flatMap_cons, List.filterMap_append]

end

/-- **Trees one after the other**: the first begins where a stretch of the text begins or behind it,
every other one where the one before it ends or behind it, and the last one ends in the stretch. -/
def InOrder : Nat → List Tree → Nat → Prop
  | p, [], q => p ≤ q
  | p, t :: ts, q => p ≤ t.start ∧ InOrder t.stop ts q

theorem InOrder.le_trans (hpm : p ≤ m) (h : InOrder m ts q) : InOrder p ts q := by
  cases ts with
  | nil => exact Nat.le_trans hpm h
  | cons t ts => exact ⟨Nat.le_trans hpm h.1, h.2⟩

theorem InOrder.append (hs : InOrder p ss m) (ht : InOrder m ts q) : InOrder p (ss ++ ts) q := by
  induction ss generalizing p with
  | nil => exact ht.le_trans hs
  | cons t ss ih => exact ⟨hs.1, ih hs.2⟩

mutual

/-- **The order in which the places are visited is that of the text.** -/
theorem inOrder_digits : ∀ {t : Tree}, t.Everywhere Joined → t.Everywhere Spelled →
    InOrder t.start t.digits t.stop
  | leaf _ _ _, _, _ => Nat.le_add_right _ _
  | .node R p q ts, hj, hs => by
    rcases Spelled.digits_cases hs.1 with ⟨-, hdigits⟩ | ⟨w, rfl, hdigits⟩
    · rw [hdigits]
      exact inOrder_flatMap_digits hj.2 hs.2 hj.1
    · rw [hdigits]
      exact ⟨Nat.le_refl p, Nat.le_refl q⟩

theorem inOrder_flatMap_digits : ∀ {ts : List Tree} {p q : Nat}, EverywhereAll Joined ts →
    EverywhereAll Spelled ts → Tiles p ts q → InOrder p (ts.flatMap digits) q
  | [], _, _, _, _, h => Nat.le_of_eq h
  | _ :: _, _, _, hj, hs, ⟨hstart, h⟩ => by
    rw [List.flatMap_cons, ← hstart]
    exact (inOrder_digits hj.1 hs.1).append (inOrder_flatMap_digits hj.2 hs.2 h)

end

/-! ### Where no operator is applied -/

/-- A tree that is no row of operands. -/
def NoRow : Tree → Prop
  | leaf _ _ _ => True
  | node R _ _ _ => ∀ level : Level, R ≠ level.rule

mutual

/-- Where there is no row, no operator is applied. -/
theorem filter_isFold_of_noRow : ∀ {t : Tree} {item : Item} {steps : List Step},
    t.Everywhere NoRow → t.evaluate limit = ⟨.ok item, steps⟩ → steps.filter Step.isFold = []
  | leaf _ _ _, _, _, _, h => by
    obtain ⟨-, rfl⟩ := Run.mk.inj h
    rfl
  | .node _ _ _ _, _, _, hn, h => by
    obtain ⟨_, _, _, hall, hact, rfl⟩ := evaluate_node_eq_ok_iff.mp h
    rw [List.filter_append, filter_isFold_of_noRowAll hn.2 hall, Rule.filter_isFold_own hn.1 hact,
      List.append_nil]

theorem filter_isFold_of_noRowAll : ∀ {ts : List Tree} {items : List Item} {steps : List Step},
    EverywhereAll NoRow ts → evaluateAll limit ts = ⟨.ok items, steps⟩ →
      steps.filter Step.isFold = []
  | [], _, _, _, h => by
    obtain ⟨-, rfl⟩ := Run.mk.inj h
    rfl
  | _ :: _, _, _, hn, h => by
    obtain ⟨_, _, _, _, ht, hts, -, rfl⟩ := evaluateAll_cons_eq_ok_iff.mp h
    rw [List.filter_append, filter_isFold_of_noRow hn.1 ht, filter_isFold_of_noRowAll hn.2 hts,
      List.append_nil]

end

end Tree

open RomanArithmetic.Tree in
/-- There is no row in a numeral. -/
theorem Numeral.Digits.everywhere_noRow (d : Digits) (p : Nat) : (d.tree p).Everywhere NoRow := by
  refine ⟨fun level => by cases level <;> decide, ?_⟩
  refine d.everywhereAll_places (fun _ _ _ => trivial) fun R hR _ _ _ level hlevel => ?_
  subst hlevel
  cases level <;> exact absurd hR Bool.false_ne_true

/-! ### Applications -/

/-- The operators that stand in a text, in order. -/
def operatorsIn (w : List Char) : List Operator :=
  w.filterMap fun x => Operator.ofText? [x]

@[simp] theorem operatorsIn_append (v w : List Char) :
    operatorsIn (v ++ w) = operatorsIn v ++ operatorsIn w :=
  List.filterMap_append

@[simp] theorem operatorsIn_symbol_cons (op : Operator) (w : List Char) :
    operatorsIn (op.symbol :: w) = op :: operatorsIn w :=
  List.filterMap_cons_some (Operator.ofText?_eq_some_iff.mpr rfl)

theorem operatorsIn_brackets (w : List Char) : operatorsIn ('(' :: w ++ [')']) = operatorsIn w := by
  have hopen : operatorsIn ['('] = [] := by decide
  have hclose : operatorsIn [')'] = [] := by decide
  rw [← List.singleton_append, operatorsIn_append, operatorsIn_append, hopen, hclose,
    List.nil_append, List.append_nil]

/-- There is no operator in a numeral. -/
theorem operatorsIn_of_letters {w : List Char} (h : ∀ x ∈ w, x ∈ numeralLetters) :
    operatorsIn w = [] := by
  have hall : numeralLetters.all fun x => Operator.ofText? [x] = none := by decide
  exact List.filterMap_eq_nil_iff.mpr fun x hx =>
    of_decide_eq_true (List.all_eq_true.mp hall x (h x hx))

/-- **Applications that account for an evaluation** of a text: they are the noted ones, there is one
for each operator of the text, and if there is any, the value is what came out last. -/
structure Accounts (applications : List Application) (w : List Char) (v : Int)
    (steps : List Step) : Prop where
  folds_eq : steps.filter Step.isFold = applications.map Application.step
  operators_perm : (applications.map Application.operator).Perm (operatorsIn w)
  last_result : ∀ a ∈ applications.getLast?, a.result = v

namespace Accounts

variable {applications ss ts : List Application} {s t w : List Char} {a b v : Int}
  {steps before own : List Step}

/-- Where no operator is applied, there is nothing to account for. -/
theorem nil (hfolds : steps.filter Step.isFold = []) (hw : operatorsIn w = []) :
    Accounts [] w v steps where
  folds_eq := hfolds
  operators_perm := hw ▸ List.Perm.nil
  last_result := nofun

/-- Where there is an operator, something came out last. -/
theorem exists_last (h : Accounts applications w v steps) (hne : operatorsIn w ≠ []) :
    ∃ last, applications.getLast? = some last ∧ last.result = v := by
  have happlications : applications ≠ [] := by
    rintro rfl
    exact hne (List.nil_perm.mp h.operators_perm)
  have hlast := List.getLast?_eq_some_getLast happlications
  exact ⟨_, hlast, h.last_result _ hlast⟩

theorem brackets (h : Accounts applications w v steps) :
    Accounts applications ('(' :: w ++ [')']) v steps where
  folds_eq := h.folds_eq
  operators_perm := operatorsIn_brackets w ▸ h.operators_perm
  last_result := h.last_result

/-- **One more operator**: the applications of the new operand come between those of the operands
before it and those of the row, and the new application comes last. -/
theorem concat (op : Operator) (hs : Accounts ss s a (before ++ own)) (ht : Accounts ts t b steps) :
    ∃ applications, Accounts applications (s ++ op.symbol :: t) (op.apply a b)
      (before ++ steps ++ (own ++ [Application.step ⟨op, a, b⟩])) := by
  have hfolds := hs.folds_eq
  rw [List.filter_append] at hfolds
  -- `xs` was applied in the operands of the row, and `ys` by the row itself
  obtain ⟨xs, ys, rfl, hxs, hys⟩ := List.map_eq_append_iff.mp hfolds.symm
  refine ⟨xs ++ ts ++ (ys ++ [⟨op, a, b⟩]), ?_, ?_, ?_⟩
  · simp only [List.filter_append, List.map_append, ← hxs, ← hys, ht.folds_eq]
    rfl
  · refine List.perm_iff_count.mpr fun o => ?_
    have hrow := hs.operators_perm.count_eq o
    have hoperand := ht.operators_perm.count_eq o
    simp only [operatorsIn_append, operatorsIn_symbol_cons, List.map_append, List.map_cons,
      List.map_nil, List.count_append, List.count_cons, List.count_nil] at hrow hoperand ⊢
    omega
  · rw [← List.append_assoc, List.getLast?_concat]
    rintro _ ⟨⟩
    rfl

end Accounts

open RomanArithmetic.Tree in
/-- **The applications of a parse tree account for its evaluation.** -/
theorem ParseTree.exists_accounts {c : Category} {p : Nat} {t : Tree} (h : ParseTree c p t) :
    ∃ v steps applications, t.evaluate .unlimited = ⟨.ok (.number v), steps⟩ ∧
      Accounts applications t.text v steps := by
  induction h with
  | @numeral p d _ =>
    obtain ⟨-, steps, hv, -⟩ := Means.numeral d p (p + d.text.length) p
    have hnoRow : (node .factor p (p + d.text.length) [d.tree p]).Everywhere NoRow :=
      ⟨fun level => by cases level <;> decide, d.everywhere_noRow p, trivial⟩
    refine ⟨_, steps, [], hv, .nil (filter_isFold_of_noRow hnoRow hv) ?_⟩
    exact operatorsIn_of_letters fun x hx =>
      d.mem_numeralLetters (by simpa using hx)
  | @brackets p e _ ih =>
    obtain ⟨v, steps, applications, hv, haccounts⟩ := ih
    refine ⟨v, steps, applications, evaluate_brackets hv, ?_⟩
    simpa using haccounts.brackets
  | single level _ ih =>
    obtain ⟨v, steps, applications, hv, haccounts⟩ := ih
    refine ⟨v, steps, applications, evaluate_singleton (level.act_rule _ _) hv, ?_⟩
    simpa using haccounts
  | @concat p q row t level op _ _ _ ihs iht =>
    obtain ⟨a, _, ss, ha, hs⟩ := ihs
    obtain ⟨b, _, ts, hb, ht⟩ := iht
    obtain ⟨before, own, rfl, hv⟩ := evaluate_concat (r := q + 1 + t.text.length) op
      (Step.writable_unlimited _) ha hb
    obtain ⟨applications, haccounts⟩ := hs.concat op ht
    refine ⟨_, _, applications, hv, ?_⟩
    simpa [Application.step, Application.result] using haccounts

/-! ### The steps of a calculation -/

variable {text : List Char} {tree : Tree} {v : Int} {steps : List Step}

/-- **Every operator of the text is applied once**, and what comes out last is the value. -/
theorem exists_accounts_of_value_eq_ok (h : parse text = .ok tree)
    (hv : tree.value limit = ⟨.ok v, steps⟩) :
    ∃ applications, Accounts applications text v steps := by
  obtain ⟨t, ht, rfl, rfl⟩ := parse_eq_ok_iff.mp h
  obtain ⟨v', steps', applications, hv', haccounts⟩ := ht.exists_accounts
  have hunlimited := ((Tree.evaluate_eq_ok_iff limit).mp (Tree.value_eq_ok_iff.mp hv)).1
  obtain ⟨⟨⟩, rfl⟩ := Run.mk.inj (hunlimited.symm.trans (Tree.evaluate_calculation hv'))
  exact ⟨applications, haccounts⟩

/-- **Every noted place is valued once**, from the left of the text to the right. -/
theorem places_of_value_eq_ok (h : parse text = .ok tree)
    (hv : tree.value limit = ⟨.ok v, steps⟩) :
    steps.filter Step.isPlace = tree.digits.filterMap Tree.note? ∧
      Tree.InOrder 0 tree.digits text.length := by
  have hparsed := everywhere_parsed_of_parse_eq_ok h
  have hspelled := hparsed.mono fun _ => Tree.Parsed.spelled
  have hjoined := hparsed.mono fun _ => Tree.Parsed.joined
  refine ⟨Tree.filter_isPlace_of_evaluate hspelled (Tree.value_eq_ok_iff.mp hv), ?_⟩
  obtain ⟨t, -, rfl, rfl⟩ := parse_eq_ok_iff.mp h
  exact Tree.inOrder_digits hjoined hspelled

end RomanArithmetic
