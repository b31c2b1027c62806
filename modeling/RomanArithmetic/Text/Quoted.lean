import RomanArithmetic.Text.Characters

/-!
# Quoted text

A text is shown to the reader between quotation marks: between `'`, or between `"` when it holds a
`'` and no `"`, so that as few marks as possible need an escape. Inside, a backslash, the mark and
everything that is not printable are escaped; every other character stands for itself
(`RomanArithmetic.quoted_eq_of_forall`).
-/

namespace RomanArithmetic

namespace Quoted

/-- The quotation mark that a text is shown between. -/
def mark (text : List Char) : Char :=
  if '\x27' ∈ text ∧ '\x22' ∉ text then '\x22' else '\x27'

/-- The last hexadecimal digits of a number, as many as are asked for. -/
def hexDigits : Nat → Nat → List Char
  | 0, _ => []
  | width + 1, n => hexDigits width (n / 16) ++ [Nat.digitChar (n % 16)]

/-- How a character is written between two marks. What is not printable and has no letter of its own
is written with its code point, in two, four or eight hexadecimal digits. -/
def escape (mark c : Char) : List Char :=
  -- the backslash and the mark itself would otherwise be misread
  if c = '\x5c' ∨ c = mark then ['\x5c', c]
  else if c = '\n' then ['\x5c', 'n']
  else if c = '\r' then ['\x5c', 'r']
  else if c = '\t' then ['\x5c', 't']
  else if isPrintable c then [c]
  else if c.toNat < 0x100 then '\x5c' :: 'x' :: hexDigits 2 c.toNat
  else if c.toNat < 0x10000 then '\x5c' :: 'u' :: hexDigits 4 c.toNat
  else '\x5c' :: 'U' :: hexDigits 8 c.toNat

/-- The character needs no escape, whatever else is in the text. -/
def IsPlain (c : Char) : Prop :=
  isPrintable c = true ∧ c ≠ '\x5c' ∧ c ≠ '\x27'

instance (c : Char) : Decidable (IsPlain c) :=
  inferInstanceAs (Decidable (_ ∧ _))

theorem escape_of_isPlain {c : Char} (h : IsPlain c) : escape '\x27' c = [c] := by
  obtain ⟨hprintable, hbackslash, hmark⟩ := h
  have hother : ∀ d, isPrintable d = false → c ≠ d := by
    rintro d hd rfl
    exact absurd (hprintable.symm.trans hd) nofun
  have hn := hother '\n' (by decide)
  have hr := hother '\r' (by decide)
  have ht := hother '\t' (by decide)
  simp [escape, hprintable, hbackslash, hmark, hn, hr, ht]

theorem flatMap_escape_of_forall {text : List Char} (h : ∀ c ∈ text, IsPlain c) :
    text.flatMap (escape '\x27') = text := by
  induction text with
  | nil => rfl
  | cons c text ih =>
    obtain ⟨hc, htext⟩ := List.forall_mem_cons.mp h
    rw [List.flatMap_cons, escape_of_isPlain hc, ih htext, List.singleton_append]

end Quoted

/-- The text between quotation marks. -/
def quoted (text : List Char) : String :=
  let mark := Quoted.mark text
  String.ofList (mark :: text.flatMap (Quoted.escape mark) ++ [mark])

/-- **A text without anything to escape** is shown as it is. -/
theorem quoted_eq_of_forall {text : List Char} (h : ∀ c ∈ text, Quoted.IsPlain c) :
    quoted text = "'" ++ String.ofList text ++ "'" := by
  have hmark : Quoted.mark text = '\x27' := if_neg fun hmem => (h _ hmem.1).2.2 rfl
  rw [quoted, hmark, Quoted.flatMap_escape_of_forall h]
  apply String.toList_injective
  simp

example : quoted ['a', '\t', '\u0085', '\u200b'] = "'a\\t\\x85\\u200b'" := by decide +kernel

end RomanArithmetic
