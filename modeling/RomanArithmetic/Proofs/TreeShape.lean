import RomanArithmetic.Proofs.Subtrees
import Mathlib.Computability.Language

/-!
# The shape of a parse tree

A parse tree holds the whole text and nothing else, and it is built as the grammar says
(`RomanArithmetic.lossless_of_parse_eq_ok`). The parser goes back and forth while it looks for the
tree: a digit is tried in four ways, and an operator is found behind which there is no operand. That
none of this leaves a trace is seen from the outcome alone, because everything in the tree is of one
of the kinds of `RomanArithmetic.Tree.Parsed`.

There are two parts to it. *Positions* are right everywhere if they are right from one neighbour to
the next: the parts of a node tile it (`RomanArithmetic.Tree.Joined`), and all else about positions
follows by induction on the tree, whatever the tree is. *Shapes* are languages: the children of a
node, each reduced to its rule or its leaf, are a word of a regular language that belongs to the
rule of the node (`RomanArithmetic.Rule.shape`).
-/

namespace RomanArithmetic

open RomanArithmetic.Tree (textAll)

namespace Tree

variable {t : Tree} {ss ts : List Tree} {p q : Nat} {text : List Char}

/-! ### Trees side by side -/

/-- **Trees tile a stretch of the text**: the first begins where the stretch begins, every other one
where its neighbour ends, and the last one ends where the stretch ends. -/
def Tiles : Nat → List Tree → Nat → Prop
  | p, [], q => p = q
  | p, t :: ts, q => t.start = p ∧ Tiles t.stop ts q

theorem tiles_append : Tiles p (ss ++ ts) q ↔ ∃ m, Tiles p ss m ∧ Tiles m ts q := by
  induction ss generalizing p with
  | nil => simp [Tiles]
  | cons t ss ih => simp only [List.cons_append, Tiles, ih, and_assoc, exists_and_left]

theorem Tiles.head?_start (h : Tiles p ts q) (hne : ts ≠ []) : ts.head?.map start = some p := by
  obtain ⟨t, ts, rfl⟩ := List.exists_cons_of_ne_nil hne
  rw [List.head?_cons, Option.map_some, h.1]

theorem Tiles.getLast?_stop (h : Tiles p ts q) (hne : ts ≠ []) :
    ts.getLast?.map stop = some q := by
  obtain ⟨ts, t, rfl⟩ := (List.eq_nil_or_concat ts).resolve_left hne
  rw [List.concat_eq_append] at h ⊢
  obtain ⟨m, -, -, hstop⟩ := tiles_append.mp h
  rw [List.getLast?_concat, Option.map_some, hstop]

/-- The parts of a node fill it from its beginning to its end. -/
def Joined : Tree → Prop
  | leaf _ _ _ => True
  | node _ p q ts => Tiles p ts q

mutual

/-- **Where the parts are joined everywhere, a tree is as long as its text.** -/
theorem stop_eq_of_joined : ∀ {t : Tree}, t.Everywhere Joined → t.stop = t.start + t.text.length
  | leaf _ _ _, _ => rfl
  | node _ _ _ _, h => stop_eq_of_tiles h.2 h.1

theorem stop_eq_of_tiles : ∀ {ts : List Tree} {p q : Nat}, EverywhereAll Joined ts →
    Tiles p ts q → q = p + (textAll ts).length
  | [], _, _, _, h => h.symm
  | t :: ts, p, q, hj, h => by
    rw [stop_eq_of_tiles hj.2 h.2, stop_eq_of_joined hj.1, h.1, textAll, List.length_append,
      Nat.add_assoc]

end

/-- **A tree covers a part of a text**: its text stands there, at the position where it begins. -/
def Covers (text : List Char) (t : Tree) : Prop :=
  ∃ u v, text = u ++ t.text ++ v ∧ t.start = u.length

theorem Covers.text_eq_extract (h : t.Covers text) :
    t.text = text.extract t.start (t.start + t.text.length) := by
  obtain ⟨u, v, rfl, hu⟩ := h
  rw [hu, List.extract_eq_take_drop, List.append_assoc, List.drop_left, Nat.add_sub_cancel_left,
    List.take_left]

mutual

/-- **Where the parts are joined everywhere, everything in a tree covers its part of the text**, if
the tree does. -/
theorem everywhere_covers : ∀ {t : Tree}, t.Everywhere Joined → t.Covers text →
    t.Everywhere (Covers text)
  | leaf _ _ _, _, h => h
  | node _ _ _ _, hj, h => by
    refine ⟨h, ?_⟩
    obtain ⟨u, v, htext, hu⟩ := h
    exact everywhereAll_covers hj.2 hj.1 htext hu

theorem everywhereAll_covers : ∀ {ts : List Tree} {p q : Nat} {u v : List Char},
    EverywhereAll Joined ts → Tiles p ts q → text = u ++ textAll ts ++ v → p = u.length →
      EverywhereAll (Covers text) ts
  | [], _, _, _, _, _, _, _, _ => trivial
  | t :: ts, p, q, u, v, hj, h, htext, hu => by
    have hstart : t.start = u.length := h.1.trans hu
    refine ⟨everywhere_covers hj.1 ⟨u, textAll ts ++ v, by simp [htext], hstart⟩, ?_⟩
    refine everywhereAll_covers (u := u ++ t.text) (v := v) hj.2 h.2 (by simp [htext]) ?_
    rw [stop_eq_of_joined hj.1, hstart, List.length_append]

end

/-! ### The matched pieces -/

/-- The matched pieces of the text, in the order in which they are visited. -/
def terminals (t : Tree) : List Tree :=
  t.nodes.filter (·.leafText?.isSome)

@[simp] theorem terminals_leaf (l : Leaf) (p : Nat) (w : List Char) :
    (leaf l p w).terminals = [leaf l p w] := rfl

@[simp] theorem terminals_node (R : Rule) (p q : Nat) (ts : List Tree) :
    (node R p q ts).terminals = ts.flatMap terminals := by
  rw [terminals, nodes_node, List.filter_cons_of_neg (by simp [leafText?]), List.filter_flatMap]
  rfl

mutual

/-- **Joined trees have joined pieces.** -/
theorem tiles_terminals : ∀ {t : Tree}, t.Everywhere Joined → Tiles t.start t.terminals t.stop
  | leaf _ _ _, _ => ⟨rfl, rfl⟩
  | node R p q ts, h => by
    rw [terminals_node]
    exact tiles_flatMap_terminals h.2 h.1

theorem tiles_flatMap_terminals : ∀ {ts : List Tree} {p q : Nat}, EverywhereAll Joined ts →
    Tiles p ts q → Tiles p (ts.flatMap terminals) q
  | [], _, _, _, h => h
  | t :: ts, _, _, hj, ⟨hstart, h⟩ => by
    rw [List.flatMap_cons, ← hstart]
    exact tiles_append.mpr ⟨t.stop, tiles_terminals hj.1, tiles_flatMap_terminals hj.2 h⟩

end

mutual

/-- Nothing of the text is lost among the pieces. -/
theorem flatMap_text_terminals : ∀ t : Tree, t.terminals.flatMap Tree.text = t.text
  | leaf _ _ _ => List.flatMap_singleton ..
  | node _ _ _ ts => by rw [terminals_node, Tree.text, textAll_flatMap_terminals ts]

theorem textAll_flatMap_terminals : ∀ ts : List Tree,
    (ts.flatMap terminals).flatMap Tree.text = textAll ts
  | [] => rfl
  | t :: ts => by
    rw [List.flatMap_cons, List.flatMap_append, flatMap_text_terminals t,
      textAll_flatMap_terminals ts, textAll]

end

/-! ### The parts of a parse tree -/

theorem tiles_symbols (p : Nat) (w : List Char) : Tiles p (symbols p w) (p + w.length) := by
  induction w generalizing p with
  | nil => rfl
  | cons x w ih =>
    have h := ih (p + 1)
    rw [Nat.add_assoc, Nat.add_comm 1] at h
    exact ⟨rfl, h⟩

theorem tiles_place (R : Rule) (p : Nat) (w : List Char) :
    Tiles p (place R p w) (p + w.length) := by
  rw [place]
  split
  · next h => rw [h]; rfl
  · exact ⟨rfl, rfl⟩

end Tree

open RomanArithmetic.Tree in
theorem Numeral.Digits.tiles_places (d : Digits) (p : Nat) :
    Tiles p (d.places p) (p + d.text.length) := by
  simp only [text, List.length_append, ← Nat.add_assoc, places, tiles_append]
  exact ⟨_, tiles_place .., _, tiles_place .., _, tiles_place .., tiles_place ..⟩

theorem ParseTree.joined {c : Category} {p : Nat} {t : Tree} (h : ParseTree c p t) : t.Joined := by
  induction h with
  | numeral _ => exact ⟨rfl, rfl⟩
  | brackets he _ => exact ⟨rfl, he.start_eq, he.stop_eq.symm, rfl⟩
  | single level ht _ => exact ⟨ht.start_eq, ht.stop_eq⟩
  | concat _ _ ht ihs _ => exact Tree.tiles_append.mpr ⟨_, ihs, rfl, ht.start_eq, ht.stop_eq⟩

namespace Tree.Parsed

variable {t : Tree} {R : Rule} {p q : Nat} {ts : List Tree}

/-- **The parser joins the parts of every node.** -/
theorem joined (h : t.Parsed) : t.Joined := by
  cases h with
  | leaf _ => trivial
  | @place _ p w _ => exact tiles_symbols p w
  | @numeral p d _ => exact d.tiles_places p
  | stretch ht => exact ht.joined
  | calculation ht => exact ⟨ht.start_eq, by rw [ht.stop_eq, Nat.zero_add, start], rfl⟩

/-- The parser makes no node without a text. -/
theorem text_ne_nil (h : (node R p q ts).Parsed) : textAll ts ≠ [] := by
  have hstretch : ∀ {c p t}, ParseTree c p t → t.text ≠ [] := by
    intro c p t ht
    obtain ⟨e, -, hd, -⟩ := ht.exists_means
    exact hd.ne_nil
  cases h with
  | place hw =>
    rw [textAll_symbols]
    exact ne_of_mem_of_not_mem hw R.nil_notMem_spellings
  | numeral hne => rwa [Numeral.Digits.textAll_places]
  | stretch ht => exact hstretch ht
  | calculation ht => exact List.append_ne_nil_of_left_ne_nil (hstretch ht) _

end Tree.Parsed

/-! ### Shapes -/

/-- What the grammar sees of a tree: its rule, or its leaf. -/
inductive Head where
  | node (rule : Rule)
  | leaf (leaf : Leaf)
deriving DecidableEq, Repr

/-- What the grammar sees of a tree. -/
def Tree.head : Tree → Head
  | .node R _ _ _ => .node R
  | .leaf l _ _ => .leaf l

open Computability in
/-- Operands with operators of a level between them. -/
def Level.shape (level : Level) : Language Head :=
  {[.node level.part.rule]} * {[.leaf (.operator level), .node level.part.rule]}∗

/-- **The shape of a rule**: the words that the children of its nodes spell. A numeral selects some
of the places and keeps their order; a place is written with one of its texts. -/
def Rule.shape : Rule → Language Head
  | calculation => {[.node expression, .leaf .endOfText]}
  | expression => Level.shape .additive
  | term => Level.shape .multiplicative
  | factor =>
    {[.node numeral]} + {[.leaf (.symbol ['(']), .node expression, .leaf (.symbol [')'])]}
  | numeral => {w | w ≠ [] ∧ w.Sublist [.node thousands, .node hundreds, .node tens, .node ones]}
  | R => (fun w => w.map fun x => .leaf (.symbol [x])) '' R.spellings

/-- The children of a node have the shape of its rule, and a leaf matches its text. -/
def Tree.Shaped : Tree → Prop
  | .node R _ _ ts => ts.map Tree.head ∈ R.shape
  | .leaf l _ w => l.take? w = some (w, [])

namespace Level

theorem shape_rule (level : Level) : level.rule.shape = level.shape := by
  cases level <;> rfl

theorem singleton_mem_shape (level : Level) : [.node level.part.rule] ∈ level.shape :=
  Language.mem_mul.mpr ⟨_, rfl, [], Language.nil_mem_kstar _, rfl⟩

/-- **A row has the shape of a row when it grows.** -/
theorem concat_mem_shape {level : Level} {w : List Head} (h : w ∈ level.shape) :
    w ++ [.leaf (.operator level), .node level.part.rule] ∈ level.shape := by
  obtain ⟨a, ha, _, hb, rfl⟩ := Language.mem_mul.mp h
  obtain ⟨pairs, rfl, hpairs⟩ := Language.mem_kstar.mp hb
  let pair : List Head := [.leaf (.operator level), .node level.part.rule]
  have hmem : ∀ y ∈ pairs ++ [pair], y ∈ ({pair} : Language Head) :=
    List.forall_mem_append.mpr ⟨hpairs, List.forall_mem_singleton.mpr rfl⟩
  refine Language.mem_mul.mpr ⟨a, ha, _, Language.mem_kstar.mpr ⟨_, rfl, hmem⟩, ?_⟩
  rw [List.flatten_append, List.flatten_singleton, List.append_assoc]

end Level

namespace Tree

theorem map_head_symbols (p : Nat) (w : List Char) :
    (symbols p w).map head = w.map fun x => .leaf (.symbol [x]) := by
  induction w generalizing p with
  | nil => rfl
  | cons x w ih => rw [symbols, List.map_cons, ih, List.map_cons, head]

theorem sublist_map_head_place (R : Rule) (p : Nat) (w : List Char) :
    ((place R p w).map head).Sublist [.node R] := by
  rw [place]
  split
  · exact List.nil_sublist _
  · exact List.Sublist.refl _

end Tree

theorem ParseTree.head_eq {c : Category} {p : Nat} {t : Tree} (h : ParseTree c p t) :
    t.head = .node c.rule := by
  obtain ⟨ts, he⟩ := h.exists_node
  rw [he, Tree.head]

theorem ParseTree.shaped {c : Category} {p : Nat} {t : Tree} (h : ParseTree c p t) :
    t.Shaped := by
  induction h with
  | numeral _ => exact Or.inl rfl
  | brackets he _ =>
    refine Or.inr ?_
    rw [List.map_cons, List.map_cons, he.head_eq]
    rfl
  | single level ht _ =>
    rw [Tree.Shaped, level.shape_rule, List.map_singleton, ht.head_eq]
    exact level.singleton_mem_shape
  | @concat _ _ _ _ level _ _ _ ht ihs _ =>
    rw [Tree.Shaped, level.shape_rule] at ihs ⊢
    rw [List.map_append, List.map_cons, List.map_singleton, ht.head_eq]
    exact Level.concat_mem_shape ihs

namespace Tree.Parsed

/-- **The parser makes nodes of the shape of their rule.** -/
theorem shaped {t : Tree} (h : t.Parsed) : t.Shaped := by
  cases h with
  | leaf hl => exact hl
  | @place R p w hw =>
    cases R with
    | thousands | hundreds | tens | ones => exact ⟨w, hw, (map_head_symbols p w).symm⟩
    | numeral | factor | term | expression | calculation => exact absurd hw (Set.notMem_empty w)
  | @numeral p d hne =>
    refine ⟨fun hnil => hne ?_, ?_⟩
    · rw [← d.textAll_places p, List.map_eq_nil_iff.mp hnil, textAll]
    · simp only [Numeral.Digits.places, List.map_append]
      exact (sublist_map_head_place ..).append <| (sublist_map_head_place ..).append <|
        (sublist_map_head_place ..).append (sublist_map_head_place ..)
  | stretch ht => exact ht.shaped
  | calculation ht =>
    rw [Shaped, List.map_cons, ht.head_eq]
    rfl

end Tree.Parsed

/-! ### The tree of an accepted text -/

/-- **Every node covers what stands in the text where it stands.** -/
theorem text_eq_extract_of_mem_nodes {text : List Char} {tree x : Tree}
    (h : parse text = .ok tree) (hx : x ∈ tree.nodes) :
    x.stop = x.start + x.text.length ∧ x.text = text.extract x.start x.stop := by
  have hjoined := (everywhere_parsed_of_parse_eq_ok h).mono fun _ => Tree.Parsed.joined
  have hcovers : tree.Covers text := by
    obtain ⟨t, -, rfl, rfl⟩ := parse_eq_ok_iff.mp h
    exact ⟨[], [], by simp, rfl⟩
  have hstop := Tree.stop_eq_of_joined (Tree.everywhere_iff.mp hjoined.everywhere x hx)
  have hx := Tree.everywhere_iff.mp (Tree.everywhere_covers hjoined hcovers) x hx
  exact ⟨hstop, hstop ▸ hx.text_eq_extract⟩

/-- **A parse tree is lossless and has the shape of the grammar.** The matched pieces tile the text
and spell it, and the last of them is its end. Every node stretches from the beginning of its first
child to the end of its last one, is not empty, and covers what stands there in the text; its
children have the shape of its rule, and every leaf matches its text. -/
theorem lossless_of_parse_eq_ok {text : List Char} {tree : Tree} (h : parse text = .ok tree) :
    (∃ ts, tree = .node .calculation 0 text.length ts) ∧
    Tree.Tiles 0 tree.terminals text.length ∧
    tree.terminals.flatMap Tree.text = text ∧
    tree.terminals.getLast? = some (.leaf .endOfText text.length []) ∧
    (∀ R p q ts, .node R p q ts ∈ tree.nodes →
      ts.head?.map Tree.start = some p ∧ ts.getLast?.map Tree.stop = some q ∧ p < q ∧
        (Tree.node R p q ts).text = text.extract p q ∧ ts.map Tree.head ∈ R.shape) ∧
    (∀ l p w, .leaf l p w ∈ tree.nodes → l.take? w = some (w, [])) := by
  have hparsed := everywhere_parsed_of_parse_eq_ok h
  have hjoined := hparsed.mono fun _ => Tree.Parsed.joined
  obtain ⟨t, ht, rfl, he⟩ := parse_eq_ok_iff.mp h
  have htext : tree.text = t.text := he ▸ List.append_nil _
  have htop : tree.start = 0 ∧ tree.stop = t.text.length := he ▸ ⟨rfl, rfl⟩
  refine ⟨⟨_, he⟩, htop.1 ▸ htop.2 ▸ Tree.tiles_terminals hjoined, ?_, ?_, fun R p q ts hmem => ?_,
    fun l p w hmem => (Tree.everywhere_iff.mp hparsed _ hmem).shaped⟩
  · rw [Tree.flatMap_text_terminals, htext]
  · rw [he, Tree.terminals_node, List.flatMap_cons, List.flatMap_singleton, Tree.terminals_leaf,
      List.getLast?_concat]
  · have hnode := Tree.everywhere_iff.mp hparsed _ hmem
    have htiles : Tree.Tiles p ts q := hnode.joined
    have hts : ts ≠ [] := fun hnil => hnode.text_ne_nil (hnil ▸ rfl)
    have hlen := List.length_pos_iff.mpr hnode.text_ne_nil
    obtain ⟨hstop, hextract⟩ := text_eq_extract_of_mem_nodes h hmem
    simp only [Tree.stop, Tree.start, Tree.text] at hstop hextract
    exact ⟨htiles.head?_start hts, htiles.getLast?_stop hts, by omega, hextract, hnode.shaped⟩

/-- A product with brackets is tiled by its pieces, and its nodes have their shapes. -/
theorem lossless_of_parse_eq_ok_product :
    let text := ['I', '*', '(', 'V', ')']
    ∃ tree, parse text = .ok tree ∧ Tree.Tiles 0 tree.terminals 5 ∧
      tree.terminals.flatMap Tree.text = text ∧
      ∀ R p q ts, .node R p q ts ∈ tree.nodes →
        (Tree.node R p q ts).text = text.extract p q ∧ ts.map Tree.head ∈ R.shape := by
  intro text
  obtain ⟨tree, h⟩ : Accepted text := ⟨_, rfl⟩
  obtain ⟨-, htiles, htext, -, hnodes, -⟩ := lossless_of_parse_eq_ok h
  exact ⟨tree, h, htiles, htext, fun R p q ts hmem => (hnodes R p q ts hmem).2.2.2⟩

end RomanArithmetic
