import RomanArithmetic.Proofs.Evaluation
import RomanArithmetic.Proofs.TreeShape

/-!
# Subexpressions

A part of a calculation means on its own what it means in the calculation
(`RomanArithmetic.parse_extract_of_mem_nodes`). If the text of a numeral, a factor, a term or an
expression is cut out of an accepted text and parsed by itself, the parser builds the same tree for
it, moved to the beginning, and the evaluation takes the same steps to the same value.

That a parse tree can be moved is a property of the grammar of trees, in which positions are only
ever compared with each other (`RomanArithmetic.ParseTree.exists_shift`). On its own the tree of a
part stands below the nodes that make an expression of it, a term that is a single factor, say, and
these leave text, value and steps alone (`RomanArithmetic.Tree.Alone`). It is found again by its
rule and its extent, since of all that begins where a tree begins the tree itself is of the highest
rank (`RomanArithmetic.Tree.Below`).
-/

namespace RomanArithmetic

open RomanArithmetic.Tree (textAll)

/-! ### Moving a tree -/

namespace Tree

mutual

/-- The same tree, at positions greater by a number. -/
def shift (k : Nat) : Tree → Tree
  | leaf l p w => leaf l (p + k) w
  | node R p q ts => node R (p + k) (q + k) (shiftAll k ts)

/-- The same neighbouring trees, at positions greater by a number. -/
def shiftAll (k : Nat) : List Tree → List Tree
  | [] => []
  | t :: ts => t.shift k :: shiftAll k ts

end

variable {k : Nat}

theorem shiftAll_append (ss ts : List Tree) :
    shiftAll k (ss ++ ts) = shiftAll k ss ++ shiftAll k ts := by
  induction ss with
  | nil => rfl
  | cons t ss ih => rw [List.cons_append, shiftAll, ih, shiftAll, List.cons_append]

mutual

@[simp] theorem text_shift : ∀ t : Tree, (t.shift k).text = t.text
  | leaf _ _ _ => rfl
  | node _ _ _ ts => by rw [shift, text, text, textAll_shiftAll ts]

@[simp] theorem textAll_shiftAll : ∀ ts : List Tree, textAll (shiftAll k ts) = textAll ts
  | [] => rfl
  | t :: ts => by rw [shiftAll, textAll, textAll, text_shift t, textAll_shiftAll ts]

end

mutual

/-- **The value of a tree does not depend on where it stands.** -/
theorem evaluate_shift (limit : DigitLimit) :
    ∀ t : Tree, (t.shift k).evaluate limit = t.evaluate limit
  | leaf _ _ _ => rfl
  | node _ _ _ ts => by rw [shift, evaluate, evaluate, evaluateAll_shiftAll limit ts]

theorem evaluateAll_shiftAll (limit : DigitLimit) :
    ∀ ts : List Tree, evaluateAll limit (shiftAll k ts) = evaluateAll limit ts
  | [] => rfl
  | t :: ts => by
    rw [shiftAll, evaluateAll, evaluateAll, evaluate_shift limit t, evaluateAll_shiftAll limit ts]

end

theorem shiftAll_symbols (p : Nat) (w : List Char) :
    shiftAll k (symbols p w) = symbols (p + k) w := by
  induction w generalizing p with
  | nil => rfl
  | cons x w ih => rw [symbols, shiftAll, ih, symbols, shift, Nat.add_right_comm]

theorem shiftAll_place (R : Rule) (p : Nat) (w : List Char) :
    shiftAll k (place R p w) = place R (p + k) w := by
  rw [place, place]
  split
  · rfl
  · rw [shiftAll, shift, shiftAll_symbols, Nat.add_right_comm, shiftAll]

end Tree

theorem Numeral.Digits.shift_tree (d : Digits) (p k : Nat) :
    (d.tree p).shift k = d.tree (p + k) := by
  simp only [tree, places, Tree.shift, Tree.shiftAll_append, Tree.shiftAll_place,
    Nat.add_right_comm _ k]

open RomanArithmetic.Tree in
/-- **A parse tree can be moved to an earlier position.** -/
theorem ParseTree.exists_shift {c : Category} {p q k : Nat} {t : Tree} (h : ParseTree c p t)
    (hp : p = q + k) : ∃ u, ParseTree c q u ∧ u.shift k = t := by
  induction h generalizing q with
  | @numeral p d hne =>
    refine ⟨_, .numeral hne, ?_⟩
    rw [shift, shiftAll, d.shift_tree, shiftAll, hp, Nat.add_right_comm]
  | brackets _ ih =>
    obtain ⟨e, he, rfl⟩ := ih (q := q + 1) (by omega)
    refine ⟨_, .brackets he, ?_⟩
    simp only [shift, shiftAll, text_shift, hp, Nat.add_right_comm _ k]
  | single level _ ih =>
    obtain ⟨u, hu, rfl⟩ := ih hp
    refine ⟨_, .single level hu, ?_⟩
    simp only [shift, shiftAll, text_shift, hp, Nat.add_right_comm _ k]
  | @concat _ _ _ _ level op hop _ _ ihs iht =>
    obtain ⟨s, hs, hsk⟩ := ihs hp
    obtain ⟨row, hrow⟩ := hs.exists_node
    rw [level.rule_whole] at hrow
    rw [hrow] at hs hsk
    obtain ⟨-, -, hq, rfl⟩ := Tree.node.inj hsk
    obtain ⟨u, hu, rfl⟩ := iht (q := q + s.text.length + 1) (by omega)
    refine ⟨_, .concat hop hs hu, ?_⟩
    simp only [shift, shiftAll, shiftAll_append, text_shift, hp, ← hq, Nat.add_right_comm _ k]

/-! ### What begins where a tree begins -/

/-- How much a rule holds: the nodes of a rule stand below nodes of higher rank. -/
def Rule.rank : Rule → Nat
  | numeral => 2
  | factor => 3
  | term => 4
  | expression => 5
  | calculation => 6
  | _ => 1

namespace Tree

/-- The rank of the rule of a node; a leaf is below everything. -/
def rank : Tree → Nat
  | leaf _ _ _ => 0
  | node R _ _ _ => R.rank

/-- **A tree below a rank**: it begins at a position or behind it, and if it begins there it is of a
lower rank. -/
def Below (p n : Nat) (t : Tree) : Prop :=
  p ≤ t.start ∧ (t.start = p → t.rank < n)

variable {p q m n : Nat} {t : Tree}

theorem Below.mono (h : Below p m t) (hmn : m ≤ n) : Below p n t :=
  ⟨h.1, fun hp => Nat.lt_of_lt_of_le (h.2 hp) hmn⟩

theorem Below.of_lt (h : Below q m t) (hpq : p < q) : Below p n t :=
  ⟨Nat.le_trans (Nat.le_of_lt hpq) h.1, fun hp => absurd h.1 (by omega)⟩

/-- A node with lower ranks below it is below the ranks that are higher than its own. -/
theorem everywhere_below_of_parts {R : Rule} {ts : List Tree}
    (h : EverywhereAll (Below p R.rank) ts) (hn : R.rank < n) :
    (node R p q ts).Everywhere (Below p n) :=
  ⟨⟨Nat.le_refl p, fun _ => hn⟩, h.mono fun _ hx => hx.mono (Nat.le_of_lt hn)⟩

theorem everywhere_below_of_lt {R : Rule} {r : Nat} {ts : List Tree}
    (h : EverywhereAll (Below q R.rank) ts) (hpq : p < q) :
    (node R q r ts).Everywhere (Below p n) :=
  (everywhere_below_of_parts h (Nat.lt_succ_self _)).mono fun _ hx => hx.of_lt hpq

end Tree

theorem Level.rank_part_lt (level : Level) : level.part.rule.rank < level.rule.rank := by
  cases level <;> decide

theorem Level.rank_pos (level : Level) : 0 < level.rule.rank := by
  cases level <;> decide

open RomanArithmetic.Tree

theorem Rule.rank_lt_of_isPlace {R : Rule} (h : R.isPlace = true) : R.rank < numeral.rank := by
  cases R with
  | thousands | hundreds | tens | ones => decide
  | numeral | factor | term | expression | calculation => exact absurd h Bool.false_ne_true

theorem Numeral.Digits.everywhereAll_below (d : Digits) (p : Nat) :
    EverywhereAll (Below p Rule.numeral.rank) (d.places p) :=
  d.everywhereAll_places (fun _ hq _ => ⟨hq, fun _ => Nat.zero_lt_two⟩) fun _ hR _ hq _ =>
    ⟨hq, fun _ => Rule.rank_lt_of_isPlace hR⟩

/-- **What begins where a parse tree begins is of lower rank** than the tree. -/
theorem ParseTree.exists_below {c : Category} {p : Nat} {t : Tree} (h : ParseTree c p t) :
    ∃ q ts, t = .node c.rule p q ts ∧ EverywhereAll (Below p c.rule.rank) ts := by
  induction h with
  | @numeral p d _ =>
    exact ⟨_, _, rfl, everywhere_below_of_parts (d.everywhereAll_below p) (by decide), trivial⟩
  | @brackets p e _ ih =>
    obtain ⟨q, ts, rfl, hts⟩ := ih
    have hrank : 0 < Category.factor.rule.rank := by decide
    exact ⟨_, _, rfl, ⟨Nat.le_refl p, fun _ => hrank⟩,
      everywhere_below_of_lt hts (Nat.lt_succ_self p),
      ⟨by rw [start]; omega, fun _ => hrank⟩, trivial⟩
  | @single p t level _ ih =>
    obtain ⟨q, ts, rfl, hts⟩ := ih
    rw [level.rule_whole]
    exact ⟨_, _, rfl, everywhere_below_of_parts hts level.rank_part_lt, trivial⟩
  | @concat p q row t level op _ hs _ ihs iht =>
    rw [level.rule_whole] at ihs ⊢
    obtain ⟨_, _, he, hrow⟩ := ihs
    obtain ⟨-, -, rfl, rfl⟩ := Tree.node.inj he
    obtain ⟨r, ts, rfl, hts⟩ := iht
    have hq : p ≤ q := by
      have hstop := hs.stop_eq
      rw [stop] at hstop
      omega
    exact ⟨_, _, rfl, everywhereAll_append.mpr ⟨hrow, ⟨hq, fun _ => level.rank_pos⟩,
      everywhere_below_of_lt hts (Nat.lt_succ_of_le hq), trivial⟩⟩

/-! ### A part on its own -/

namespace Tree

/-- Whether the tree is a node of a rule that reaches from one position to another. -/
def isNode (R : Rule) (p q : Nat) : Tree → Bool
  | node R' p' q' _ => R' = R ∧ p' = p ∧ q' = q
  | leaf _ _ _ => false

/-- The nodes of a rule in a tree that reach from one position to another. -/
def spanning (R : Rule) (p q : Nat) (t : Tree) : List Tree :=
  t.nodes.filter (isNode R p q)

variable {R : Rule} {p q n : Nat} {t u : Tree} {ts : List Tree}

/-- A node above everything that begins where it begins is the only one of its rule there. -/
theorem spanning_self (h : EverywhereAll (Below p R.rank) ts) :
    (node R p q ts).spanning R p q = [node R p q ts] := by
  have hparts : (ts.flatMap nodes).filter (isNode R p q) = [] := by
    refine List.filter_eq_nil_iff.mpr fun x hx hnode => ?_
    obtain ⟨-, hrank⟩ := everywhereAll_iff.mp h x hx
    cases x with
    | leaf l p' w => exact absurd hnode Bool.false_ne_true
    | node R' p' q' ts' =>
      obtain ⟨rfl, rfl, rfl⟩ : R' = R ∧ p' = p ∧ q' = q := by simpa [isNode] using hnode
      exact absurd (hrank rfl) (Nat.lt_irrefl _)
  rw [spanning, nodes_node, List.filter_cons_of_pos (by simp [isNode]), hparts]

/-- Above a node of another rule nothing is added. -/
theorem spanning_node_of_ne {R' : Rule} (hR : R' ≠ R) (p' q' : Nat) :
    (node R' p' q' ts).spanning R p q = ts.flatMap (spanning R p q) := by
  rw [spanning, nodes_node, List.filter_cons_of_neg (by simp [isNode, hR]), List.filter_flatMap]
  rfl

/-- **A tree stands alone in another one**: there is nothing else in it as far as the text, the
value and the nodes of a rule are concerned. -/
structure Alone (R : Rule) (t u : Tree) : Prop where
  text_eq : u.text = t.text
  evaluate_eq : ∀ {limit : DigitLimit} {v : Int} {steps : List Step},
    t.evaluate limit = ⟨.ok (.number v), steps⟩ → u.evaluate limit = ⟨.ok (.number v), steps⟩
  spanning_eq : ∀ p q, u.spanning R p q = t.spanning R p q

namespace Alone

theorem refl (R : Rule) (t : Tree) : Alone R t t :=
  ⟨rfl, id, fun _ _ => rfl⟩

/-- A node of another rule above it, whose action passes a number on, changes nothing. -/
theorem single {R' : Rule} (h : Alone R t u) (hR : R' ≠ R)
    (hact : ∀ limit v, R'.act limit [.number v] = ⟨.ok (.number v), []⟩) :
    Alone R t (node R' p q [u]) where
  text_eq := (List.append_nil _).trans h.text_eq
  evaluate_eq hv := evaluate_singleton (hact _ _) (h.evaluate_eq hv)
  spanning_eq m n := by
    rw [spanning_node_of_ne hR, List.flatMap_singleton, h.spanning_eq]

/-- In particular a row of a single operand. -/
theorem row (level : Level) (h : Alone R t u) (hR : level.rule ≠ R) :
    Alone R t (node level.rule p q [u]) :=
  h.single hR fun limit _ => level.act_rule limit _

/-- The end of the text behind it changes nothing either. -/
theorem calculation (h : Alone R t u) (hR : .calculation ≠ R) (m : Nat) :
    Alone R t (node .calculation p q [u, leaf .endOfText m []]) where
  text_eq := (List.append_nil _).trans h.text_eq
  evaluate_eq hv := evaluate_calculation (h.evaluate_eq hv)
  spanning_eq m n := by
    rw [spanning_node_of_ne hR, List.flatMap_cons, List.flatMap_singleton, h.spanning_eq]
    exact List.append_nil _

end Alone

end Tree

/-! ### Numerals, factors, terms and expressions -/

/-- The rules of the parts that are calculations themselves. -/
def Rule.subexpressions : List Rule :=
  [.numeral, .factor, .term, .expression]

/-- **A subexpression**: a numeral, or a stretch of some category. -/
inductive Subexpression : Rule → Nat → Tree → Prop
  | numeral {p : Nat} {d : Numeral.Digits} : d.text ≠ [] → Subexpression .numeral p (d.tree p)
  | stretch {c : Category} {p : Nat} {t : Tree} : ParseTree c p t → Subexpression c.rule p t

theorem Tree.Parsed.subexpression {R : Rule} {p q : Nat} {ts : List Tree}
    (h : (node R p q ts).Parsed) (hR : R ∈ Rule.subexpressions) :
    Subexpression R p (node R p q ts) := by
  cases h with
  | place hw =>
    cases R with
    | thousands | hundreds | tens | ones | calculation => exact absurd hR (by decide)
    | numeral | factor | term | expression => exact absurd hw (Set.notMem_empty _)
  | numeral hne => exact .numeral hne
  | stretch ht =>
    obtain ⟨_, he⟩ := ht.exists_node
    obtain ⟨rfl, rfl, -, -⟩ := Tree.node.inj he
    exact .stretch ht
  | calculation _ => exact absurd hR (by decide)

namespace Subexpression

variable {R : Rule} {p q k : Nat} {t : Tree}

theorem exists_shift (h : Subexpression R p t) (hp : p = q + k) :
    ∃ u, Subexpression R q u ∧ u.shift k = t := by
  cases h with
  | @numeral _ d hne => exact ⟨_, .numeral hne, by rw [d.shift_tree, hp]⟩
  | stretch h =>
    obtain ⟨u, hu, hk⟩ := h.exists_shift hp
    exact ⟨u, .stretch hu, hk⟩

theorem exists_evaluate (h : Subexpression R p t) :
    ∃ v steps, t.evaluate .unlimited = ⟨.ok (.number v), steps⟩ := by
  cases h with
  | @numeral _ d _ =>
    obtain ⟨steps, hv⟩ := d.exists_evaluate_tree p
    exact ⟨_, steps, hv _⟩
  | stretch h =>
    obtain ⟨e, ⟨-, steps, hv, -⟩, -⟩ := h.exists_means
    exact ⟨_, steps, hv⟩

/-- **A subexpression is the only node of its rule that reaches as far.** -/
theorem spanning_eq (h : Subexpression R p t) : t.spanning R p (p + t.text.length) = [t] := by
  cases h with
  | @numeral _ d _ =>
    rw [d.text_tree]
    exact spanning_self (d.everywhereAll_below p)
  | stretch h =>
    obtain ⟨q, ts, he, hts⟩ := h.exists_below
    have hstop := h.stop_eq
    rw [← hstop, he]
    exact spanning_self hts

/-- **A subexpression stands alone in an expression.** -/
theorem exists_expression (h : Subexpression R p t) :
    ∃ e, ParseTree .expression p e ∧ Alone R t e := by
  cases h with
  | @numeral _ d hne =>
    have hfactor : Alone .numeral (d.tree p) (.node .factor p (p + d.text.length) [d.tree p]) :=
      (Alone.refl _ _).single (by decide) fun _ _ => rfl
    exact ⟨_, ((ParseTree.numeral hne).single .multiplicative).single .additive,
      (hfactor.row .multiplicative (by decide)).row .additive (by decide)⟩
  | @stretch c _ t h =>
    cases c with
    | factor =>
      exact ⟨_, (h.single .multiplicative).single .additive,
        ((Alone.refl _ t).row .multiplicative (by decide)).row .additive (by decide)⟩
    | term => exact ⟨_, h.single .additive, (Alone.refl _ t).row .additive (by decide)⟩
    | expression => exact ⟨t, h, Alone.refl _ t⟩

end Subexpression

/-! ### Parsing a part -/

variable {text : List Char} {tree : Tree}

/-- Where a text has a value, every subexpression in its tree has one. -/
theorem exists_value_of_mem_nodes {limit : DigitLimit} {v w : Int} {steps : List Step} {x : Tree}
    (h : parse text = .ok tree) (hw : evaluateText limit text = .ok w) (hx : x ∈ tree.nodes)
    (hv : x.value .unlimited = ⟨.ok v, steps⟩) : x.value limit = ⟨.ok v, steps⟩ := by
  obtain ⟨found, steps', hparse, hvalue⟩ := evaluateText_eq_ok_iff.mp hw
  obtain rfl : tree = found := Except.ok.inj (h.symm.trans hparse)
  have hall := Tree.everywhere_evaluates (Tree.value_eq_ok_iff.mp hvalue)
  obtain ⟨item, own, hitem⟩ := Tree.everywhere_iff.mp hall x hx
  obtain ⟨hunlimited, hwritable⟩ := (Tree.evaluate_eq_ok_iff limit).mp hitem
  obtain ⟨-, rfl⟩ := Run.mk.inj (hunlimited.symm.trans (Tree.value_eq_ok_iff.mp hv))
  exact Tree.value_of_writable hv hwritable

/-- **A part of a calculation means the same on its own.** The text of a numeral, a factor, a term
or an expression in the tree of an accepted text is accepted by itself. Its value is the one that
the part comes to in the whole, with the same steps; under a limit on written numbers this may be
that a number is too long, but not where the whole has a value. In its tree exactly one node of the
same rule covers all of it, and this node is the part as it was, at positions that count from its
beginning. -/
theorem parse_extract_of_mem_nodes (h : parse text = .ok tree) {R : Rule} {i j : Nat}
    {ts : List Tree} (hmem : .node R i j ts ∈ tree.nodes) (hR : R ∈ Rule.subexpressions) :
    ∃ tree' v steps, parse (text.extract i j) = .ok tree' ∧
      evaluateText .unlimited (text.extract i j) = .ok v ∧
      (Tree.node R i j ts).value .unlimited = ⟨.ok v, steps⟩ ∧
      (∀ limit, tree'.value limit = (Tree.node R i j ts).value limit) ∧
      (∀ limit w, evaluateText limit text = .ok w →
        evaluateText limit (text.extract i j) = .ok v ∧
          (Tree.node R i j ts).value limit = ⟨.ok v, steps⟩) ∧
      ∃ sub, tree'.spanning R 0 (j - i) = [sub] ∧ sub.shift i = .node R i j ts := by
  have hparsed := Tree.everywhere_iff.mp (everywhere_parsed_of_parse_eq_ok h) _ hmem
  obtain ⟨sub, hsub, hshift⟩ := (hparsed.subexpression hR).exists_shift (Nat.zero_add i).symm
  obtain ⟨e, he, halone⟩ := hsub.exists_expression
  obtain ⟨v, steps, hv⟩ := hsub.exists_evaluate
  obtain ⟨hstop, hextract⟩ := text_eq_extract_of_mem_nodes h hmem
  rw [← hshift, Tree.text_shift, hshift] at hstop hextract
  simp only [Tree.stop, Tree.start] at hstop hextract
  have htext : e.text = text.extract i j := halone.text_eq.trans hextract
  have hcalculation := halone.calculation (p := 0) (q := (text.extract i j).length)
    (by rintro rfl; exact absurd hR (by decide)) (text.extract i j).length
  have hparse := parse_eq_ok_iff.mpr ⟨e, he, htext, rfl⟩
  -- without a limit both come to the value
  have hvalue := Tree.value_eq_ok_iff.mpr (hcalculation.evaluate_eq hv)
  have hnode : (Tree.node R i j ts).value .unlimited = ⟨.ok v, steps⟩ := by
    rw [← hshift]
    exact Tree.value_eq_ok_iff.mpr ((Tree.evaluate_shift _ sub).trans hv)
  have hsame := Tree.value_congr (hvalue.trans hnode.symm)
  refine ⟨_, v, steps, hparse, evaluateText_eq_ok_iff.mpr ⟨_, steps, hparse, hvalue⟩, hnode, hsame,
    fun limit w hw => ?_, sub, ?_, hshift⟩
  · have hlimited := exists_value_of_mem_nodes h hw hmem hnode
    exact ⟨evaluateText_eq_ok_iff.mpr ⟨_, steps, hparse, (hsame limit).trans hlimited⟩, hlimited⟩
  · rw [hcalculation.spanning_eq, ← hsub.spanning_eq, hstop, Nat.zero_add, Nat.add_sub_cancel_left]

/-- What stands between brackets is parsed by itself as the expression that it is there. -/
theorem parse_extract_of_mem_nodes_brackets :
    let text := ['X', '-', '(', 'I', 'I', '+', 'I', ')']
    ∃ tree ts, parse text = .ok tree ∧ .node .expression 3 7 ts ∈ tree.nodes ∧
      evaluateText .unlimited ['I', 'I', '+', 'I'] = .ok 3 ∧
      ∃ tree' steps sub, parse ['I', 'I', '+', 'I'] = .ok tree' ∧
        (Tree.node .expression 3 7 ts).value .unlimited = ⟨.ok 3, steps⟩ ∧
        tree'.spanning .expression 0 4 = [sub] ∧ sub.shift 3 = .node .expression 3 7 ts := by
  intro text
  obtain ⟨tree, ts, h, hmem⟩ : ∃ tree ts, parse text = .ok tree ∧
      .node .expression 3 7 ts ∈ tree.nodes :=
    ⟨_, _, rfl, List.mem_of_getElem? (i := 11) rfl⟩
  obtain ⟨tree', v, steps, hparse, hv, hvalue, -, -, sub, hsub, hshift⟩ :=
    parse_extract_of_mem_nodes h hmem (by decide)
  obtain rfl : v = 3 := Except.ok.inj (hv.symm.trans rfl)
  exact ⟨tree, ts, h, hmem, hv, tree', steps, sub, hparse, hvalue, hsub, hshift⟩

end RomanArithmetic
