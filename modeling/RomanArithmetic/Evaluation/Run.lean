import RomanArithmetic.Evaluation.Item
import RomanArithmetic.Tree

/-!
# Runs

An evaluation may be given items that do not fit: something can be missing, unknown or of the wrong
kind. And it notes what it does: each step is written down, with the numbers in it, whether or not
somebody is going to read the note. So a number that is too long to be written ends an evaluation as
well. `RomanArithmetic.Fault` says what can be wrong.

A *run* has an outcome, an item or a fault, say, and the steps that were noted until then. A fault
does not take them back. Runs are put together by `>>=`, where a fault in the first run is one of
both and the second is not begun, and `RomanArithmetic.Run.note` is the run that notes a step.
-/

namespace RomanArithmetic

/-! ### Faults -/

/-- What can be wrong in an evaluation. -/
inductive Fault where
  /-- There is no item where one is needed. -/
  | missingItem
  /-- Nothing is known under this key, or no key was given. -/
  | unknown (key : Option Item)
  /-- The items are not of a kind that this can be done with. -/
  | wrongKind
  /-- A number has more digits than may be written. -/
  | tooLong (digits : Nat)
deriving DecidableEq, Repr

/-- The message of a fault. -/
def Fault.message : Fault → String
  | missingItem => "list index out of range"
  | unknown (some key) => key.mention
  | unknown none => "None"
  | wrongKind => ""
  | tooLong digits => "Exceeds the limit (" ++ toString digits ++ " digits) for integer string " ++
      "conversion; use sys.set_int_max_str_digits() to increase the limit"

namespace Operator

/-- The operator that an item names, where it has to name one. -/
def ofItem (key : Item) : Except Fault Operator :=
  match ofText? key.spelling with
  | some op => .ok op
  | none => .error (.unknown (some key))

/-- How tightly the operator written as a text binds, where a text has to be one. -/
def precedenceOf (text? : Option (List Char)) : Except Fault Nat :=
  match text?.bind precedence? with
  | some level => .ok level
  | none => .error (.unknown (text?.map .symbol))

/-- Applies the operator written as a text to two integers, where a text has to be one. -/
def applyWritten (text? : Option (List Char)) (left right : Int) : Except Fault Int :=
  match text?.bind ofText? with
  | some op => .ok (op.apply left right)
  | none => .error (.unknown (text?.map .symbol))

/-- Applies an operator to two items. Besides numbers, texts can be joined by the plus sign, and a
text and a number are multiplied by repeating the text. -/
def applyItems : Operator → Item → Item → Except Fault Item
  | op, .number a, .number b => .ok (.number (op.apply a b))
  | .add, .symbol s, .symbol t => .ok (.symbol (s ++ t))
  | .mul, .symbol s, .number n => .ok (.symbol (List.replicate n.toNat s).flatten)
  | .mul, .number n, .symbol s => .ok (.symbol (List.replicate n.toNat s).flatten)
  | _, _, _ => .error .wrongKind

end Operator

/-! ### Steps -/

/-- A step of an evaluation. -/
inductive Step where
  /-- A place was valued. -/
  | place (rule : Rule) (text : List Char) (value : Int)
  /-- An operator was applied to what had been computed before it and to the item behind it. -/
  | fold (left operator right result : Item)
deriving DecidableEq, Repr

namespace Step

/-- Whether the step can be written under a limit. All its numbers are written. -/
def Writable (limit : DigitLimit) : Step → Prop
  | place _ _ value => limit.Allows value
  | fold left operator right result =>
    left.Writable limit ∧ operator.Writable limit ∧ right.Writable limit ∧ result.Writable limit

instance (limit : DigitLimit) : DecidablePred (Writable limit)
  | place _ _ value => inferInstanceAs (Decidable (limit.Allows value))
  | fold _ _ _ _ => inferInstanceAs (Decidable (_ ∧ _ ∧ _ ∧ _))

end Step

/-! ### Runs -/

/-- What an evaluation comes to, and the steps that it notes. -/
structure Run (α : Type) where
  outcome : Except Fault α
  steps : List Step
deriving Repr

namespace Run

variable {α β : Type}

instance : Monad Run where
  pure a := ⟨.ok a, []⟩
  bind run next :=
    match run with
    | ⟨.ok a, steps⟩ =>
      let rest := next a
      ⟨rest.outcome, steps ++ rest.steps⟩
    | ⟨.error fault, steps⟩ => ⟨.error fault, steps⟩

/-- The run that does nothing but fail. -/
def fail (fault : Fault) : Run α :=
  ⟨.error fault, []⟩

/-- The run with an outcome that notes nothing. -/
def ofExcept (outcome : Except Fault α) : Run α :=
  ⟨outcome, []⟩

/-- Notes a step. It has to be written down for this. -/
def note (limit : DigitLimit) (step : Step) : Run Unit :=
  if step.Writable limit then ⟨.ok (), [step]⟩ else fail (.tooLong limit.digits)

theorem eq_mk_of_outcome_eq {run : Run α} {outcome : Except Fault α} (h : run.outcome = outcome) :
    run = ⟨outcome, run.steps⟩ := by
  rw [← h]

@[simp] theorem pure_eq (a : α) : (pure a : Run α) = ⟨.ok a, []⟩ := rfl

@[simp] theorem mk_ok_bind (a : α) (steps : List Step) (next : α → Run β) :
    (⟨.ok a, steps⟩ : Run α) >>= next = ⟨(next a).outcome, steps ++ (next a).steps⟩ := rfl

@[simp] theorem mk_error_bind (fault : Fault) (steps : List Step) (next : α → Run β) :
    (⟨.error fault, steps⟩ : Run α) >>= next = ⟨.error fault, steps⟩ := rfl

/-- **A run that comes to something has two such parts**, one after the other. -/
theorem bind_eq_ok_iff {run : Run α} {next : α → Run β} {b : β} {steps : List Step} :
    run >>= next = ⟨.ok b, steps⟩ ↔ ∃ a before own, run = ⟨.ok a, before⟩ ∧
      next a = ⟨.ok b, own⟩ ∧ steps = before ++ own := by
  obtain ⟨_ | a, before⟩ := run
  · simp
  · constructor
    · intro h
      obtain ⟨houtcome, rfl⟩ := Run.mk.inj h
      exact ⟨a, before, _, rfl, by rw [← houtcome], rfl⟩
    · rintro ⟨_, _, own, ⟨⟩, h, rfl⟩
      rw [mk_ok_bind, h]

theorem ofExcept_eq_ok_iff {outcome : Except Fault α} {a : α} {steps : List Step} :
    ofExcept outcome = ⟨.ok a, steps⟩ ↔ outcome = .ok a ∧ steps = [] := by
  rw [ofExcept, Run.mk.injEq, eq_comm (a := steps)]

theorem note_of_writable {limit : DigitLimit} {step : Step} (h : step.Writable limit) :
    note limit step = ⟨.ok (), [step]⟩ :=
  if_pos h

theorem note_eq_ok_iff {limit : DigitLimit} {step : Step} {u : Unit} {steps : List Step} :
    note limit step = ⟨.ok u, steps⟩ ↔ step.Writable limit ∧ steps = [step] := by
  by_cases h : step.Writable limit
  · rw [note_of_writable h, Run.mk.injEq, eq_comm (a := steps)]
    simp [h]
  · simp [note, fail, h]

end Run

end RomanArithmetic
