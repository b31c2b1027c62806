import RomanArithmetic.Evaluation.Run
import RomanArithmetic.Numeral.Place

/-!
# Actions

Each rule of the grammar has an action, which makes one item out of the items of its parts: a place
is valued by its spelling, a numeral adds up its places, and a term or an expression applies its
operators from left to right. An action may be given any items at all, and ends with a fault where
they do not fit.

A parse tree is evaluated from its leaves upwards: a leaf comes to its text, and an inner node to
what the action of its rule makes of its children. The steps are noted in the order in which they
are taken, those of the children from left to right before those of their parent.
-/

namespace RomanArithmetic

variable (limit : DigitLimit)

namespace Item

/-- Applies to a first operand the operators and operands that follow it, from left to right. That
an operand is missing is noticed before its operator is looked up. -/
def foldFrom (left : Item) : List Item → Run Item
  | [] => pure left
  | [_] => .fail .missingItem
  | key :: right :: rest => do
    let op ← Run.ofExcept (Operator.ofItem key)
    let result ← Run.ofExcept (op.applyItems left right)
    Run.note limit (.fold left key right result)
    foldFrom result rest

/-- Applies the operators between operands from left to right. -/
def foldAll : List Item → Run Item
  | [] => .fail .missingItem
  | first :: rest => foldFrom limit first rest

end Item

/-! ### Rules -/

namespace Rule

/-- The action of a rule on the items of its parts. Each character of the thousands counts a
thousand; the other places go by their three symbols. -/
def act (rule : Rule) (items : List Item) : Run Item :=
  -- the parts of a place are symbols, and what they spell together is what counts
  let spelling := items.flatMap Item.spelling
  match rule with
  | thousands => pure (.number (spelling.length * 1000))
  | hundreds => valued hundreds Place.hundreds spelling
  | tens => valued tens Place.tens spelling
  | ones => valued ones Place.ones spelling
  | numeral => pure (.number (Item.total items))
  | factor =>
    match items.filterMap Item.number? with
    | [] => .fail .missingItem
    | value :: _ => pure (.number value)
  | term => Item.foldAll limit items
  | expression => Item.foldAll limit items
  | calculation =>
    match items with
    | [] => .fail .missingItem
    | item :: _ => pure item
where
  /-- Values a place, and notes it. -/
  valued (rule : Rule) (place : Place) (spelling : List Char) : Run Item := do
    let value := place.value spelling
    Run.note limit (.place rule spelling value)
    pure (.number value)

/-- The action of a rule on parts that come in groups. -/
def actOnGroups (rule : Rule) (parts : List Group) : Except Fault Item :=
  (rule.act limit (Group.flattenAll parts)).outcome

/-- Whether the rule is about the digits of one decimal place. -/
def isPlace : Rule → Bool
  | thousands => true
  | hundreds => true
  | tens => true
  | ones => true
  | _ => false

/-- The action of the rule of a place on any text as the spelling of the place. The name has to be
that of such a rule. -/
def actOnSpelling (ruleName spelling : List Char) : Except Fault Item :=
  match (ofName? (String.ofList ruleName)).filter isPlace with
  | some rule => (rule.act limit [.symbol spelling]).outcome
  | none => .error (.unknown (some (.symbol ruleName)))

end Rule

/-! ### Trees -/

namespace Tree

mutual

/-- What a tree comes to. -/
def evaluate : Tree → Run Item
  | leaf _ _ text => pure (.symbol text)
  | node rule _ _ children => do
    let items ← evaluateAll children
    rule.act limit items

/-- What neighbouring trees come to. -/
def evaluateAll : List Tree → Run (List Item)
  | [] => pure []
  | tree :: trees => do
    let item ← tree.evaluate
    let items ← evaluateAll trees
    pure (item :: items)

end

variable {limit}

theorem evaluate_node_eq_ok_iff {R : Rule} {p q : Nat} {ts : List Tree} {v : Item}
    {steps : List Step} : (node R p q ts).evaluate limit = ⟨.ok v, steps⟩ ↔
      ∃ items before own, evaluateAll limit ts = ⟨.ok items, before⟩ ∧
        R.act limit items = ⟨.ok v, own⟩ ∧ steps = before ++ own := by
  rw [evaluate]
  exact Run.bind_eq_ok_iff

theorem evaluateAll_cons_eq_ok_iff {t : Tree} {ts : List Tree} {items : List Item}
    {steps : List Step} : evaluateAll limit (t :: ts) = ⟨.ok items, steps⟩ ↔
      ∃ item first rest more, t.evaluate limit = ⟨.ok item, first⟩ ∧
        evaluateAll limit ts = ⟨.ok rest, more⟩ ∧ items = item :: rest ∧ steps = first ++ more := by
  rw [evaluateAll, Run.bind_eq_ok_iff]
  constructor
  · rintro ⟨item, first, _, ht, hrest, rfl⟩
    obtain ⟨rest, more, own, hts, hpure, rfl⟩ := Run.bind_eq_ok_iff.mp hrest
    obtain ⟨⟨⟩, rfl⟩ := Run.mk.inj hpure
    exact ⟨item, first, rest, more, ht, hts, rfl, by rw [List.append_nil]⟩
  · rintro ⟨item, first, rest, more, ht, hts, rfl, rfl⟩
    exact ⟨item, first, more, ht,
      Run.bind_eq_ok_iff.mpr ⟨rest, more, [], hts, rfl, (List.append_nil _).symm⟩, rfl⟩

variable (limit)

/-- The number that a tree comes to. -/
def value (tree : Tree) : Run Int := do
  match ← tree.evaluate limit with
  | .number value => pure value
  | .symbol _ => .fail .wrongKind

mutual

/-- The nodes that the evaluation of a tree begins with, in this order: each node before its
children, until something is wrong. -/
def visited : Tree → List Tree
  | leaf l start text => [leaf l start text]
  | node rule start stop children => node rule start stop children :: visitedAll children

/-- The nodes that the evaluation of neighbouring trees begins with. -/
def visitedAll : List Tree → List Tree
  | [] => []
  | tree :: trees =>
    tree.visited ++
      match (tree.evaluate limit).outcome with
      | .ok _ => visitedAll trees
      | .error _ => []

end

end Tree

end RomanArithmetic
