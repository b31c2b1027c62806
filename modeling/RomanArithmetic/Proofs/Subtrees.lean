import RomanArithmetic.Proofs.Parsing

/-!
# Everything in a parse tree

A tree is made of trees, and many things that are true of a parse tree are true of everything in it.
`RomanArithmetic.Tree.nodes` lists what is in a tree, and `RomanArithmetic.Tree.Everywhere` is the
same thing for induction: a property that a tree and everything in it has.

What can be found in a tree that the parser makes is little: a matched piece of the text, a decimal
place with its symbols, a numeral, a stretch of a calculation, and the calculation itself, each with
the positions that it would have if it were parsed where it stands. `RomanArithmetic.Tree.Parsed` is
this list, and `RomanArithmetic.everywhere_parsed_of_parse_eq_ok` says that nothing else occurs.
What is to be shown of every node of a parse tree can then be shown for one kind of node after the
other.
-/

namespace RomanArithmetic

open RomanArithmetic.Tree (textAll)

/-! ### Properties of all nodes of a tree -/

namespace Tree

/-- The tree and everything in it, each node before its children. -/
def nodes (t : Tree) : List Tree :=
  (t.preorder 0).map (·.2)

mutual

/-- The depth at which the top stands has no effect on the order. -/
theorem map_snd_preorder : ∀ (t : Tree) (m n : Nat),
    (t.preorder m).map (·.2) = (t.preorder n).map (·.2)
  | leaf _ _ _, _, _ => rfl
  | node _ _ _ ts, m, n => congrArg (_ :: ·) (map_snd_preorderAll ts (m + 1) (n + 1))

theorem map_snd_preorderAll : ∀ (ts : List Tree) (m n : Nat),
    (preorderAll ts m).map (·.2) = (preorderAll ts n).map (·.2)
  | [], _, _ => rfl
  | t :: ts, m, n => by
    simp only [preorderAll, List.map_append, map_snd_preorder t m n, map_snd_preorderAll ts m n]

end

@[simp] theorem nodes_leaf (l : Leaf) (p : Nat) (w : List Char) :
    (leaf l p w).nodes = [leaf l p w] := rfl

@[simp] theorem nodes_node (R : Rule) (p q : Nat) (ts : List Tree) :
    (node R p q ts).nodes = node R p q ts :: ts.flatMap nodes := by
  have hall : (preorderAll ts 1).map (·.2) = ts.flatMap nodes := by
    induction ts with
    | nil => rfl
    | cons t ts ih =>
      rw [preorderAll, List.map_append, ih, List.flatMap_cons, map_snd_preorder t 1 0, nodes]
  rw [← hall]
  rfl

mutual

/-- A property that a tree and everything in it have. -/
def Everywhere (P : Tree → Prop) : Tree → Prop
  | leaf l p w => P (leaf l p w)
  | node R p q ts => P (node R p q ts) ∧ EverywhereAll P ts

/-- A property that neighbouring trees and everything in them have. -/
def EverywhereAll (P : Tree → Prop) : List Tree → Prop
  | [] => True
  | t :: ts => t.Everywhere P ∧ EverywhereAll P ts

end

variable {P Q : Tree → Prop}

theorem everywhereAll_append {ss ts : List Tree} :
    EverywhereAll P (ss ++ ts) ↔ EverywhereAll P ss ∧ EverywhereAll P ts := by
  induction ss with
  | nil => simp [EverywhereAll]
  | cons t ss ih => simp only [List.cons_append, EverywhereAll, ih, and_assoc]

mutual

theorem everywhere_iff : ∀ {t : Tree}, t.Everywhere P ↔ ∀ x ∈ t.nodes, P x
  | leaf _ _ _ => by simp [Everywhere]
  | node _ _ _ ts => by
    rw [Everywhere, everywhereAll_iff, nodes_node, List.forall_mem_cons]

theorem everywhereAll_iff : ∀ {ts : List Tree},
    EverywhereAll P ts ↔ ∀ x ∈ ts.flatMap nodes, P x
  | [] => by simp [EverywhereAll]
  | t :: ts => by
    rw [EverywhereAll, everywhere_iff, everywhereAll_iff, List.flatMap_cons, List.forall_mem_append]

end

theorem Everywhere.mono {t : Tree} (h : t.Everywhere P) (hPQ : ∀ x, P x → Q x) :
    t.Everywhere Q :=
  everywhere_iff.mpr fun x hx => hPQ x (everywhere_iff.mp h x hx)

theorem EverywhereAll.mono {ts : List Tree} (h : EverywhereAll P ts) (hPQ : ∀ x, P x → Q x) :
    EverywhereAll Q ts :=
  everywhereAll_iff.mpr fun x hx => hPQ x (everywhereAll_iff.mp h x hx)

mutual

/-- What is true everywhere in a tree is true everywhere in each of its parts. -/
theorem Everywhere.everywhere : ∀ {t : Tree}, t.Everywhere P → t.Everywhere (Everywhere P)
  | leaf _ _ _, h => h
  | node _ _ _ _, h => ⟨h, h.2.everywhere⟩

theorem EverywhereAll.everywhere : ∀ {ts : List Tree}, EverywhereAll P ts →
    EverywhereAll (Everywhere P) ts
  | [], _ => trivial
  | _ :: _, h => ⟨h.1.everywhere, h.2.everywhere⟩

end

mutual

/-- **A fault in a part is a fault of the whole**: where a tree comes to something, everything in it
does. -/
theorem everywhere_evaluates {limit : DigitLimit} : ∀ {t : Tree} {item : Item} {steps : List Step},
    t.evaluate limit = ⟨.ok item, steps⟩ →
      t.Everywhere fun x => ∃ item steps, x.evaluate limit = ⟨.ok item, steps⟩
  | leaf _ _ _, item, steps, h => ⟨item, steps, h⟩
  | .node _ _ _ _, item, steps, h => by
    obtain ⟨_, _, _, hall, -, -⟩ := evaluate_node_eq_ok_iff.mp h
    exact ⟨⟨item, steps, h⟩, everywhereAll_evaluates hall⟩

theorem everywhereAll_evaluates {limit : DigitLimit} : ∀ {ts : List Tree} {items : List Item}
    {steps : List Step}, evaluateAll limit ts = ⟨.ok items, steps⟩ →
      EverywhereAll (fun x => ∃ item steps, x.evaluate limit = ⟨.ok item, steps⟩) ts
  | [], _, _, _ => trivial
  | _ :: _, _, _, h => by
    obtain ⟨_, _, _, _, ht, hts, -, -⟩ := evaluateAll_cons_eq_ok_iff.mp h
    exact ⟨everywhere_evaluates ht, everywhereAll_evaluates hts⟩

end

variable {p : Nat}

/-- **A property of single symbols** is one of everything in a row of them. -/
theorem everywhereAll_symbols (h : ∀ q, p ≤ q → ∀ x, P (leaf (.symbol [x]) q [x]))
    (w : List Char) : EverywhereAll P (symbols p w) := by
  induction w generalizing p with
  | nil => trivial
  | cons x w ih => exact ⟨h p (Nat.le_refl p) x, ih fun q hq => h q (Nat.le_of_succ_le hq)⟩

theorem everywhereAll_place {R : Rule} (h : ∀ q, p ≤ q → ∀ x, P (leaf (.symbol [x]) q [x]))
    (hR : ∀ w, P (node R p (p + w.length) (symbols p w))) (w : List Char) :
    EverywhereAll P (place R p w) := by
  rw [place]
  split
  · trivial
  · exact ⟨⟨hR w, everywhereAll_symbols h w⟩, trivial⟩

end Tree

open RomanArithmetic.Tree in
/-- **A property of symbols and of decimal places** is one of everything in a numeral. -/
theorem Numeral.Digits.everywhereAll_places {P : Tree → Prop} {p : Nat}
    (h : ∀ q, p ≤ q → ∀ x, P (.leaf (.symbol [x]) q [x]))
    (hR : ∀ R, R.isPlace = true → ∀ q, p ≤ q → ∀ w, P (.node R q (q + w.length) (symbols q w)))
    (d : Digits) : EverywhereAll P (d.places p) := by
  have hplace : ∀ R, R.isPlace = true → ∀ q, p ≤ q → ∀ w, EverywhereAll P (place R q w) :=
    fun R hp q hq w =>
      everywhereAll_place (fun r hr => h r (Nat.le_trans hq hr)) (hR R hp q hq) w
  simp only [places, everywhereAll_append]
  refine ⟨?_, ?_, ?_, ?_⟩ <;> exact hplace _ rfl _ (by omega) _

/-! ### What can be found in a parse tree -/

/-- The texts with which the place of a rule may be written. -/
def Rule.spellings : Rule → Set (List Char)
  | thousands => Numeral.thousandsTexts
  | hundreds => Place.hundreds.digits
  | tens => Place.tens.digits
  | ones => Place.ones.digits
  | _ => ∅

theorem Rule.nil_notMem_spellings (R : Rule) : [] ∉ R.spellings := by
  cases R with
  | thousands => exact Numeral.nil_notMem_thousandsTexts
  | hundreds => exact Place.nil_notMem_digits Place.distinct_hundreds
  | tens => exact Place.nil_notMem_digits Place.distinct_tens
  | ones => exact Place.nil_notMem_digits Place.distinct_ones
  | numeral | factor | term | expression | calculation => exact Set.notMem_empty []

/-- **What can be found in a parse tree**: the kinds of trees that the parser makes. -/
inductive Tree.Parsed : Tree → Prop
  /-- A piece of the text that its leaf matches. -/
  | leaf {l : Leaf} {p : Nat} {w : List Char} : l.take? w = some (w, []) → Parsed (.leaf l p w)
  /-- A decimal place, written with single symbols. -/
  | place {R : Rule} {p : Nat} {w : List Char} :
      w ∈ R.spellings → Parsed (.node R p (p + w.length) (symbols p w))
  /-- A numeral that writes something. -/
  | numeral {p : Nat} {d : Numeral.Digits} : d.text ≠ [] → Parsed (d.tree p)
  /-- A stretch of a calculation. -/
  | stretch {c : Category} {p : Nat} {t : Tree} : ParseTree c p t → Parsed t
  /-- A calculation as a whole, which ends with the end of the text. -/
  | calculation {t : Tree} : ParseTree .expression 0 t →
      Parsed (.node .calculation 0 t.text.length [t, .leaf .endOfText t.text.length []])

namespace Tree

theorem everywhereAll_parsed_of_place {R : Rule} {p : Nat} {ts : List Tree}
    (h : Phrases.place R R.spellings p ts) : EverywhereAll Parsed ts := by
  rcases h with ⟨_, ⟨w, hw, rfl⟩, rfl⟩ | rfl
  · rw [textAll_symbols]
    exact ⟨⟨.place hw, everywhereAll_symbols (fun _ _ _ => .leaf (Leaf.matches_symbol.mpr rfl)) w⟩,
      trivial⟩
  · trivial

theorem everywhere_parsed_numeral {d : Numeral.Digits} (h : d.text ≠ []) (p : Nat) :
    (d.tree p).Everywhere Parsed := by
  obtain ⟨_, _, h₁, ⟨_, _, h₂, ⟨_, _, h₃, h₄, rfl⟩, rfl⟩, hplaces⟩ :=
    Numeral.placesPhrases_iff.mpr ⟨d, rfl⟩
  refine ⟨.numeral h, ?_⟩
  rw [hplaces]
  simp only [everywhereAll_append]
  exact ⟨everywhereAll_parsed_of_place h₁, everywhereAll_parsed_of_place h₂,
    everywhereAll_parsed_of_place h₃, everywhereAll_parsed_of_place h₄⟩

end Tree

open RomanArithmetic.Tree in
/-- **Everything in a stretch of a calculation was parsed where it stands.** -/
theorem ParseTree.everywhere_parsed {c : Category} {p : Nat} {t : Tree} (h : ParseTree c p t) :
    t.Everywhere Parsed := by
  induction h with
  | numeral hne =>
    exact ⟨.stretch (.numeral hne), everywhere_parsed_numeral hne _, trivial⟩
  | brackets he ih =>
    exact ⟨.stretch (.brackets he), .leaf rfl, ih, .leaf rfl, trivial⟩
  | single level ht ih => exact ⟨.stretch (.single level ht), ih, trivial⟩
  | concat hop hs ht ihs iht =>
    have hsymbol := Leaf.matches_operator.mpr (List.mem_map_of_mem hop)
    exact ⟨.stretch (.concat hop hs ht),
      everywhereAll_append.mpr ⟨ihs.2, .leaf hsymbol, iht, trivial⟩⟩

/-- **Everything in the tree of a text is of one of the kinds that the parser makes.** -/
theorem everywhere_parsed_of_parse_eq_ok {text : List Char} {tree : Tree}
    (h : parse text = .ok tree) : tree.Everywhere Tree.Parsed := by
  obtain ⟨t, ht, rfl, rfl⟩ := parse_eq_ok_iff.mp h
  exact ⟨.calculation ht, ht.everywhere_parsed, .leaf rfl, trivial⟩

end RomanArithmetic
