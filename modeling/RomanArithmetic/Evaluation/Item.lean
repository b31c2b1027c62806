import RomanArithmetic.Text.Quoted

/-!
# Items

What a node of a parse tree comes to is an item: a number, or a symbol that is kept as the text it
was matched from. An action on a node works on the items of its children in a row; they may reach it
in groups within groups, which are opened first (`RomanArithmetic.Group.flattenAll`).

A number of any size can be computed with, but not every number can be written down in decimal:
there may be a limit on its digits (`RomanArithmetic.DigitLimit`).
-/

namespace RomanArithmetic

/-! ### Limits on written numbers -/

/-- How many digits a number may have that is written in decimal, where zero stands for any number
of them. No limit is so low that a number of 640 digits could not be written. -/
structure DigitLimit where
  digits : Nat
  enough : digits = 0 ∨ 640 ≤ digits := by decide
deriving DecidableEq, Repr

namespace DigitLimit

/-- Every number can be written. -/
def unlimited : DigitLimit where
  digits := 0

/-- The limit that holds where no other is asked for. -/
def standard : DigitLimit where
  digits := 4300

/-- Whether a number can be written under the limit. The sign does not count as a digit. -/
def Allows (limit : DigitLimit) (value : Int) : Prop :=
  limit.digits = 0 ∨ value.natAbs < Nat.pow 10 limit.digits

instance (limit : DigitLimit) (value : Int) : Decidable (limit.Allows value) :=
  inferInstanceAs (Decidable (_ ∨ _))

theorem unlimited_allows (value : Int) : unlimited.Allows value :=
  Or.inl rfl

/-- A number of four digits can be written under every limit. -/
theorem allows_of_natAbs_lt (limit : DigitLimit) {value : Int} (h : value.natAbs < 10000) :
    limit.Allows value :=
  limit.enough.imp id fun henough => by
    have hfour : 4 ≤ limit.digits := Nat.le_trans (by decide) henough
    calc value.natAbs < Nat.pow 10 4 := h
      _ ≤ Nat.pow 10 limit.digits := Nat.pow_le_pow_right (by decide) hfour

/-- A number that is no longer than another can be written where the other can. -/
theorem Allows.of_natAbs_le {limit : DigitLimit} {a b : Int} (hb : limit.Allows b)
    (h : a.natAbs ≤ b.natAbs) : limit.Allows a :=
  hb.imp id fun hlt => Nat.lt_of_le_of_lt h hlt

end DigitLimit

/-! ### Items -/

/-- What a node of a parse tree comes to. -/
inductive Item where
  | number (value : Int)
  | symbol (text : List Char)
deriving DecidableEq, Repr

namespace Item

/-- The number, if the item is one. -/
def number? : Item → Option Int
  | number value => some value
  | symbol _ => none

/-- The sum of the numbers among items. -/
def total : List Item → Int
  | [] => 0
  | number value :: items => value + total items
  | symbol _ :: items => total items

/-- The text of a symbol; a number has none. -/
def spelling : Item → List Char
  | number _ => []
  | symbol text => text

/-- Whether the item can be written under a limit. Only numbers are limited. -/
def Writable (limit : DigitLimit) : Item → Prop
  | number value => limit.Allows value
  | symbol _ => True

instance (limit : DigitLimit) : DecidablePred (Writable limit)
  | number value => inferInstanceAs (Decidable (limit.Allows value))
  | symbol _ => inferInstanceAs (Decidable True)

/-- The item as it is: a number in decimal, a symbol as its text. -/
def toText : Item → String
  | number value => toString value
  | symbol text => String.ofList text

/-- The item as it is mentioned: a symbol between quotation marks. -/
def mention : Item → String
  | number value => toString value
  | symbol text => quoted text

end Item

/-! ### Groups -/

/-- An item, or several groups in a row. -/
inductive Group where
  | item (item : Item)
  | group (parts : List Group)
deriving Repr

/-- The group of nothing. -/
instance : Inhabited Group :=
  ⟨.group []⟩

namespace Group

mutual

/-- The items of a group, in order. -/
def flatten : Group → List Item
  | item i => [i]
  | group parts => flattenAll parts

/-- The items of several groups, in order. -/
def flattenAll : List Group → List Item
  | [] => []
  | part :: parts => part.flatten ++ flattenAll parts

end

theorem flattenAll_append (s t : List Group) :
    flattenAll (s ++ t) = flattenAll s ++ flattenAll t := by
  induction s with
  | nil => rfl
  | cons part parts ih => rw [List.cons_append, flattenAll, flattenAll, ih, List.append_assoc]

/-- What a node without an action of its own comes to: its text, if it has one and no parts, and
otherwise its parts as they are. -/
def ofParts (parts : List Group) (text? : Option (List Char)) : Group :=
  match parts, text? with
  | [], some text => item (.symbol text)
  | parts, _ => group parts

end Group

end RomanArithmetic
