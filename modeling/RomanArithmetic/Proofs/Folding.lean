import RomanArithmetic.Proofs.Meanings

/-!
# Folding a row of items

A term or an expression applies its operators from left to right to whatever items its parts come
to. Nothing about the items is taken for granted: one can be missing, or no operator can be known
under it. What the fold makes of *any* row with numbers at the places of the operands is said here
(`RomanArithmetic.Level.actOnGroups_cases`), faults included, and also which of several faults it
ends with.

The fold takes an operator and an operand at a time, so that a row consists of the operations that
are carried out (`RomanArithmetic.Item.foldFrom_operations`) and of what the fold stops at
(`RomanArithmetic.Item.exists_operations`): the end of the row, an item behind which the operand is
missing, or an unknown key with an operand behind it. That the operand is missed before its operator
is looked up makes the second of these the same fault for known and unknown keys.

Under a limit on written numbers the operations count as well, before anything that the fold could
stop at: if a number in one of them is too long, this is the fault of the row.
-/

namespace RomanArithmetic

namespace Item

variable {limit : DigitLimit} {items rest tail : List Item} {item key first right : Item} {i : Nat}
  {a : Int} {ops : List (Operator × Int)}

/-! ### The items of a row -/

/-- The item is the text of an operator. -/
def IsOperator (item : Item) : Prop :=
  ∃ op : Operator, item = .symbol [op.symbol]

/-- There are numbers at the places of the operands. -/
def OperandsAreNumbers (items : List Item) : Prop :=
  ∀ i item, i % 2 = 0 → items[i]? = some item → ∃ n, item = .number n

/-- **An unknown key** at a place of a row: no operator stands where one should, in front of an
operand. -/
def UnknownAt (items : List Item) (i : Nat) (key : Item) : Prop :=
  i % 2 = 1 ∧ i + 1 < items.length ∧ items[i]? = some key ∧ ¬key.IsOperator

/-- The items of operators with their right operands. -/
def operations (ops : List (Operator × Int)) : List Item :=
  ops.flatMap fun (op, n) => [.symbol [op.symbol], .number n]

theorem operations_cons (op : Operator) (n : Int) (ops : List (Operator × Int)) :
    operations ((op, n) :: ops) = .symbol [op.symbol] :: .number n :: operations ops := rfl

theorem length_operations (ops : List (Operator × Int)) :
    (operations ops).length = 2 * ops.length := by
  induction ops with
  | nil => rfl
  | cons p ops ih =>
    rw [operations_cons, List.length_cons, List.length_cons, ih, List.length_cons]
    omega

theorem operandsAreNumbers_nil : OperandsAreNumbers [] :=
  fun _ _ _ hitem => absurd hitem nofun

theorem operandsAreNumbers_singleton (a : Int) : OperandsAreNumbers [.number a]
  | 0, _, _, hitem => ⟨a, (Option.some.inj hitem).symm⟩
  | _ + 1, _, _, hitem => absurd hitem nofun

/-- A row is read two items at a time. -/
theorem OperandsAreNumbers.cons_cons (h : OperandsAreNumbers items) (a : Int) (key : Item) :
    OperandsAreNumbers (.number a :: key :: items)
  | 0, _, _, hitem => ⟨a, (Option.some.inj hitem).symm⟩
  | 1, _, hi, _ => absurd hi (by decide)
  | i + 2, item, hi, hitem => h i item (by omega) hitem

theorem operandsAreNumbers_operations (a : Int) (ops : List (Operator × Int)) :
    OperandsAreNumbers (.number a :: operations ops) := by
  induction ops generalizing a with
  | nil => exact operandsAreNumbers_singleton a
  | cons p ops ih => exact (ih p.2).cons_cons a _

/-- At the places of the operators there are operators. -/
theorem isOperator_of_getElem?_operations {k : Nat}
    (h : (operations ops)[2 * k]? = some key) : key.IsOperator := by
  induction ops generalizing k with
  | nil => exact absurd h (by simp [operations])
  | cons p ops ih =>
    cases k with
    | zero => exact ⟨p.1, (Option.some.inj h).symm⟩
    | succ k => exact ih h

/-! ### Carrying out operations -/

/-- What the operations of a row make of its first number, from left to right. -/
def carriedOut (a : Int) (ops : List (Operator × Int)) : Int :=
  ops.foldl (fun value p => p.1.apply value p.2) a

/-- The operations of a row, each with the number that those before it come to. -/
def applications : Int → List (Operator × Int) → List Application
  | _, [] => []
  | a, (op, n) :: ops => ⟨op, a, n⟩ :: applications (op.apply a n) ops

/-- **A row fits a limit**: whatever operations it begins with, the numbers in them can be
written. -/
def RowFits (limit : DigitLimit) (items : List Item) : Prop :=
  ∀ a ops tail, items = .number a :: (operations ops ++ tail) → ∀ x ∈ applications a ops,
    limit.Allows x.left ∧ limit.Allows x.right ∧ limit.Allows x.result

theorem rowFits_unlimited (items : List Item) : RowFits .unlimited items := fun _ _ _ _ _ _ =>
  ⟨DigitLimit.unlimited_allows _, DigitLimit.unlimited_allows _, DigitLimit.unlimited_allows _⟩

theorem RowFits.writable (h : RowFits limit (.number a :: (operations ops ++ tail))) :
    ∀ x ∈ applications a ops, x.step.Writable limit := fun x hx =>
  Application.writable_step_iff.mpr (h a ops tail rfl x hx)

/-- **Operations are carried out from left to right.** -/
theorem foldFrom_operations (h : ∀ x ∈ applications a ops, x.step.Writable limit) :
    foldFrom limit (.number a) (operations ops) =
      ⟨.ok (.number (carriedOut a ops)), (applications a ops).map Application.step⟩ := by
  induction ops generalizing a with
  | nil => rfl
  | cons p ops ih =>
    obtain ⟨hfirst, hrest⟩ := List.forall_mem_cons.mp h
    exact foldFrom_cons_eq_ok_iff.mpr ⟨p.1, _, _, Operator.ofItem_eq_ok_iff.mpr rfl,
      p.1.applyItems_number a p.2, hfirst, ih hrest, rfl⟩

/-- What a row of items is folded to. -/
def folded (limit : DigitLimit) (items : List Item) : Except Fault Item :=
  (foldAll limit items).outcome

/-- **A fold goes on where it stopped**, whatever follows. -/
theorem folded_append (h : folded limit items = .ok item) (tail : List Item) :
    folded limit (items ++ tail) = folded limit (item :: tail) := by
  cases items with
  | nil => cases h
  | cons first rest =>
    have hfold : foldFrom limit first rest = ⟨.ok item, _⟩ := Run.eq_mk_of_outcome_eq h
    rw [folded, List.cons_append, foldAll, foldFrom_append hfold, folded, foldAll]

/-- Behind the operations of a row the fold goes on with what they come to. -/
theorem folded_operations (h : RowFits limit (.number a :: (operations ops ++ tail))) :
    folded limit (.number a :: (operations ops ++ tail)) =
      folded limit (.number (carriedOut a ops) :: tail) := by
  have hops : folded limit (.number a :: operations ops) = .ok (.number (carriedOut a ops)) := by
    rw [folded, foldAll, foldFrom_operations h.writable]
  exact folded_append hops tail

/-- **A row that does not fit** has a number that is too long, whatever the fold would stop at. -/
theorem folded_of_not_rowFits (h : ¬RowFits limit items) :
    folded limit items = .error (.tooLong limit.digits) := by
  simp only [RowFits, not_forall] at h
  obtain ⟨a, ops, tail, rfl, x, hx, hlong⟩ := h
  have hwhole : foldFrom .unlimited (.number a) (operations ops) = _ :=
    foldFrom_operations fun x _ => Step.writable_unlimited x.step
  have hrun := foldFrom_append (t := tail) hwhole
  have hops : ¬∀ step ∈ (applications a ops).map Application.step, step.Writable limit := fun h =>
    hlong (Application.writable_step_iff.mp (h _ (List.mem_map_of_mem hx)))
  rw [folded, foldAll, ← cut_foldFrom, hrun, Run.cut_append_of_not_writable hops]

/-- **An unknown key ends the fold**, if there is an operand behind it. -/
theorem folded_of_not_isOperator (hkey : ¬key.IsOperator) (left right : Item)
    (rest : List Item) :
    folded limit (left :: key :: right :: rest) = .error (.unknown (some key)) := by
  have hunknown : Operator.ofItem key = .error (.unknown (some key)) := by
    cases hop : Operator.ofText? key.spelling with
    | none => rw [Operator.ofItem, hop]
    | some op =>
      have hkeyop : Operator.ofItem key = .ok op := by rw [Operator.ofItem, hop]
      exact absurd ⟨op, Operator.ofItem_eq_ok_iff.mp hkeyop⟩ hkey
  simp only [folded, foldAll, foldFrom, hunknown, Run.ofExcept, Run.mk_error_bind]

/-! ### A whole row -/

theorem OperandsAreNumbers.tail_tail (h : OperandsAreNumbers (item :: key :: right :: rest)) :
    OperandsAreNumbers (right :: rest) := by
  intro i other hi hother
  exact h (i + 2) other (by omega) hother

/-- **What a fold stops at**: a row with numbers as operands consists of operations, behind which
it ends, or an operand is missing, or an unknown key stands in front of one. -/
theorem exists_operations : ∀ {first : Item} {rest : List Item},
    OperandsAreNumbers (first :: rest) → ∃ ops tail, rest = operations ops ++ tail ∧
      (tail = [] ∨ (∃ key, tail = [key]) ∨
        ∃ key right more, ¬key.IsOperator ∧ tail = key :: right :: more)
  | _, [], _ => ⟨[], [], rfl, Or.inl rfl⟩
  | _, [key], _ => ⟨[], [key], rfl, Or.inr (Or.inl ⟨key, rfl⟩)⟩
  | _, key :: right :: rest, h => by
    by_cases hkey : key.IsOperator
    · obtain ⟨op, rfl⟩ := hkey
      obtain ⟨n, rfl⟩ := h 2 right rfl rfl
      obtain ⟨ops, tail, rfl, htail⟩ := exists_operations h.tail_tail
      exact ⟨(op, n) :: ops, tail, rfl, htail⟩
    · exact ⟨[], key :: right :: rest, rfl, Or.inr (Or.inr ⟨key, right, rest, hkey, rfl⟩)⟩

/-- Among the operations no key is unknown. -/
theorem UnknownAt.lt (h : UnknownAt (first :: (operations ops ++ tail)) i key) :
    2 * ops.length < i := by
  obtain ⟨hodd, -, hkey, hno⟩ := h
  by_contra hle
  obtain ⟨k, rfl⟩ : ∃ k, i = 2 * k + 1 := ⟨i / 2, by omega⟩
  have hlen := length_operations ops
  rw [List.getElem?_cons_succ, List.getElem?_append_left (by omega)] at hkey
  exact hno (isOperator_of_getElem?_operations hkey)

theorem not_unknownAt_operations : ¬UnknownAt (first :: operations ops) i key := by
  intro h
  have hbound := h.2.1
  rw [List.length_cons, length_operations] at hbound
  rw [← List.append_nil (operations ops)] at h
  have hlt := h.lt
  omega

/-- The key that a fold stops at is unknown. -/
theorem unknownAt_behind_operations (hkey : ¬key.IsOperator) (first right : Item)
    (ops : List (Operator × Int)) (more : List Item) :
    UnknownAt (first :: (operations ops ++ key :: right :: more)) (2 * ops.length + 1) key := by
  have hlen := length_operations ops
  refine ⟨by omega, ?_, ?_, hkey⟩
  · simp only [List.length_cons, List.length_append]
    omega
  · rw [List.getElem?_cons_succ, List.getElem?_append_right (by omega), hlen, Nat.sub_self,
      List.getElem?_cons_zero]

/-- **An unknown key is the fault of a row**, if it is the first one. -/
theorem folded_of_unknownAt (hfits : RowFits limit items) (hrow : OperandsAreNumbers items)
    (h : UnknownAt items i key) (hfirst : ∀ j < i, ∀ other, ¬UnknownAt items j other) :
    folded limit items = .error (.unknown (some key)) := by
  cases items with
  | nil => exact absurd h.2.1 (Nat.not_lt_zero _)
  | cons first rest =>
    obtain ⟨a, rfl⟩ := hrow 0 first rfl rfl
    obtain ⟨ops, tail, rfl, htail⟩ := exists_operations hrow
    have hlt := h.lt
    have hlen := length_operations ops
    have hfollowed := h.2.1
    rw [List.length_cons, List.length_append, hlen] at hfollowed
    rcases htail with rfl | ⟨last, rfl⟩ | ⟨other, right, more, hother, rfl⟩
    · rw [List.length_nil] at hfollowed
      omega
    · rw [List.length_singleton] at hfollowed
      omega
    · have hstop := unknownAt_behind_operations hother (.number a) right ops more
      obtain rfl : i = 2 * ops.length + 1 := by
        by_contra hne
        exact hfirst _ (by omega) other hstop
      obtain rfl : other = key := Option.some.inj (hstop.2.2.1.symm.trans h.2.2.1)
      exact (folded_operations hfits).trans (folded_of_not_isOperator hother _ right more)

/-- **Where no key is unknown**, an operand is missing at the end of the row, or the row comes to a
number. -/
theorem folded_of_not_unknownAt (hfits : RowFits limit items) (hrow : OperandsAreNumbers items)
    (hne : items ≠ []) (hno : ∀ i key, ¬UnknownAt items i key) :
    (items.length % 2 = 0 ∧ folded limit items = .error .missingItem) ∨
      (items.length % 2 = 1 ∧ ∃ a ops, items = .number a :: operations ops ∧
        folded limit items = .ok (.number (carriedOut a ops))) := by
  obtain ⟨first, rest, rfl⟩ := List.exists_cons_of_ne_nil hne
  obtain ⟨a, rfl⟩ := hrow 0 first rfl rfl
  obtain ⟨ops, tail, rfl, htail⟩ := exists_operations hrow
  have hlen := length_operations ops
  have hfold := folded_operations hfits
  simp only [List.length_cons, List.length_append, hlen]
  rcases htail with rfl | ⟨last, rfl⟩ | ⟨other, right, more, hother, rfl⟩
  · exact Or.inr ⟨by rw [List.length_nil]; omega, a, ops, by rw [List.append_nil], hfold⟩
  · exact Or.inl ⟨by rw [List.length_singleton]; omega, hfold⟩
  · exact absurd (unknownAt_behind_operations hother (.number a) right ops more) (hno _ _)

end Item

/-! ### The rules of terms and expressions -/

theorem Level.actOnGroups_rule (level : Level) (limit : DigitLimit) (parts : List Group) :
    level.rule.actOnGroups limit parts = Item.folded limit (Group.flattenAll parts) := by
  rw [Rule.actOnGroups, level.act_rule, Item.folded]

/-- **What a row of parts is folded to**, by the rule of terms as by that of expressions. Only the
items count and not how they are grouped. If numbers stand at the places of the operands, then
an empty row misses its first item; otherwise the first unknown key with an operand behind it is the
fault of the row, wherever the row ends; otherwise a row of even length misses its last operand,
whether the operator in front of it is known or not; and any other row comes to what its operators
make of its first number, from left to right. Every row fits where there is no limit on written
numbers. Where there is one, all this is so for a row that fits it, and the fault of a row that does
not is a number that is too long. Parts that come to an item can be replaced by the item, whatever
follows them. -/
theorem Level.actOnGroups_cases (level : Level) (parts : List Group) :
    let items := Group.flattenAll parts
    let result := fun limit => level.rule.actOnGroups limit parts
    (∀ limit others, Group.flattenAll others = items →
      level.rule.actOnGroups limit others = result limit) ∧
    (Item.OperandsAreNumbers items → Item.RowFits .unlimited items ∧ ∀ limit,
      (Item.RowFits limit items →
        (items = [] → result limit = .error .missingItem) ∧
        (∀ i key, Item.UnknownAt items i key →
          (∀ j < i, ∀ other, ¬Item.UnknownAt items j other) →
            result limit = .error (.unknown (some key))) ∧
        ((∀ i key, ¬Item.UnknownAt items i key) →
          (items ≠ [] → items.length % 2 = 0 → result limit = .error .missingItem) ∧
          (items.length % 2 = 1 → ∃ a ops, items = .number a :: Item.operations ops ∧
            result limit =
              .ok (.number (ops.foldl (fun value p => p.1.apply value p.2) a))))) ∧
      (¬Item.RowFits limit items → result limit = .error (.tooLong limit.digits))) ∧
    (∀ limit item tail, result limit = .ok item →
      level.rule.actOnGroups limit (parts ++ tail) =
        level.rule.actOnGroups limit (.item item :: tail)) := by
  intro items result
  have hresult : ∀ limit, result limit = Item.folded limit items := fun limit =>
    level.actOnGroups_rule limit parts
  refine ⟨fun limit others h => ?_, fun hrow => ⟨Item.rowFits_unlimited items, fun limit =>
    ⟨fun hfits => ⟨fun hnil => ?_, fun i key h hfirst => ?_, fun hno => ?_⟩, fun hlong => ?_⟩⟩,
    fun limit item tail h => ?_⟩
  · rw [hresult, level.actOnGroups_rule, h]
  · rw [hresult, hnil]
    rfl
  · rw [hresult]
    exact Item.folded_of_unknownAt hfits hrow h hfirst
  · rw [hresult]
    refine ⟨fun hne heven => ?_, fun hodd => ?_⟩
    · rcases Item.folded_of_not_unknownAt hfits hrow hne hno with ⟨-, h⟩ | ⟨hodd, -⟩
      · exact h
      · omega
    · have hne : items ≠ [] := fun hnil => by simp [hnil] at hodd
      rcases Item.folded_of_not_unknownAt hfits hrow hne hno with ⟨heven, -⟩ | ⟨-, h⟩
      · omega
      · exact h
  · rw [hresult]
    exact Item.folded_of_not_rowFits hlong
  · rw [level.actOnGroups_rule, level.actOnGroups_rule, Group.flattenAll_append]
    exact Item.folded_append ((hresult limit).symm.trans h) _

/-- Ten minus four, times three, in groups and from left to right; a row with two unknown keys, of
which the first counts; and a row that is too long for the standard limit. -/
theorem Level.actOnGroups_cases_difference :
    let parts : List Group := [.group [.item (.number 10), .item (.symbol ['-'])],
      .item (.number 4), .group [.group [.item (.symbol ['*'])], .item (.number 3)]]
    let wrong : List Group := [.item (.number 1), .group [.item (.symbol ['/']), .item (.number 2),
      .item (.number 7)], .item (.number 3), .item (.symbol ['+'])]
    let long : List Group := [.item (.number (10 ^ 4300)), .item (.symbol ['+']), .item (.number 1)]
    (Item.OperandsAreNumbers (Group.flattenAll parts) ∧
      (∀ i key, ¬Item.UnknownAt (Group.flattenAll parts) i key) ∧
      ∃ a ops, Group.flattenAll parts = .number a :: Item.operations ops ∧
        ops.foldl (fun value p => p.1.apply value p.2) a = 18) ∧
    (Item.OperandsAreNumbers (Group.flattenAll wrong) ∧
      Item.UnknownAt (Group.flattenAll wrong) 1 (.symbol ['/']) ∧
      Level.additive.rule.actOnGroups .unlimited wrong =
        .error (.unknown (some (.symbol ['/'])))) ∧
    Level.additive.rule.actOnGroups .standard long = .error (.tooLong 4300) := by
  intro parts wrong long
  have hparts : Item.OperandsAreNumbers (Group.flattenAll parts) :=
    Item.operandsAreNumbers_operations 10 [(.sub, 4), (.mul, 3)]
  have hknown : ∀ i key, ¬Item.UnknownAt (Group.flattenAll parts) i key := fun _ _ =>
    @Item.not_unknownAt_operations _ (.number 10) _ [(.sub, 4), (.mul, 3)]
  have hwrong : Item.OperandsAreNumbers (Group.flattenAll wrong) :=
    ((Item.operandsAreNumbers_nil.cons_cons 3 (.symbol ['+'])).cons_cons 2 (.number 7)).cons_cons 1
      (.symbol ['/'])
  have hslash : Item.UnknownAt (Group.flattenAll wrong) 1 (.symbol ['/']) := by
    refine ⟨rfl, by decide, rfl, ?_⟩
    rintro ⟨op, hop⟩
    cases op <;> exact absurd hop (by decide)
  have hlong : Item.OperandsAreNumbers (Group.flattenAll long) :=
    Item.operandsAreNumbers_operations (10 ^ 4300) [(.add, 1)]
  have hunfit : ¬Item.RowFits .standard (Group.flattenAll long) := by
    intro hfits
    have hallows := (hfits (10 ^ 4300) [(.add, 1)] [] rfl _ (List.mem_singleton.mpr rfl)).1
    exact absurd hallows (by decide +kernel)
  obtain ⟨-, hfold, -⟩ := Level.actOnGroups_cases .multiplicative parts
  obtain ⟨-, hfault, -⟩ := Level.actOnGroups_cases .additive wrong
  obtain ⟨-, htooLong, -⟩ := Level.actOnGroups_cases .additive long
  obtain ⟨hfits, hcases⟩ := hfold hparts
  obtain ⟨hfits', hcases'⟩ := hfault hwrong
  have hlength : (Group.flattenAll parts).length = 5 := rfl
  obtain ⟨a, ops, hitems, hvalue⟩ :=
    (((hcases .unlimited).1 hfits).2.2 hknown).2 (by rw [hlength])
  refine ⟨⟨hparts, hknown, a, ops, hitems, ?_⟩, ⟨hwrong, hslash, ?_⟩,
    ((htooLong hlong).2 .standard).2 hunfit⟩
  · exact (Item.number.inj (Except.ok.inj hvalue)).symm
  · refine ((hcases' .unlimited).1 hfits').2.1 1 _ hslash ?_
    rintro j hj other ⟨hodd, -⟩
    omega

end RomanArithmetic
