import RomanArithmetic.Proofs.Meanings

/-!
# Texts with a hole

To put something else in the place of an operand, and to say what becomes of the value, we look at
what is left of a text when the operand is taken out: `RomanArithmetic.Context` is a text that
writes an expression, with one factor missing. It has a part in front of the hole and one behind it,
and in place of an expression it has a function, from the expression of what will stand in the hole
to that of the whole.

Any factor fits into the hole (`RomanArithmetic.Context.fill`), and of two factors of the same value
one is as good as the other: what is around the hole has to do with the value alone
(`RomanArithmetic.Context.value_congr`, `RomanArithmetic.Context.fits_congr`). The other way round,
a stretch of a text can be taken out if no derivation of the text cuts it
(`RomanArithmetic.Uncut.exists_hole`). This is a question about the text: a group is not cut because
its brackets are a pair, and a run of letters because there is no letter next to it.
-/

namespace RomanArithmetic

/-- **A text with a hole** where a factor is missing: its category, the part in front of the hole,
the part behind it, and what it writes as a function of what the factor writes. -/
inductive Context : Category → List Char → List Char → (Expr → Expr) → Prop
  /-- The hole alone. -/
  | hole : Context .factor [] [] id
  /-- The hole is between brackets. -/
  | brackets {u v : List Char} {f : Expr → Expr} :
      Context .expression u v f → Context .factor ('(' :: u) (v ++ [')']) f
  /-- The hole is in the only operand of a row. -/
  | single {u v : List Char} {f : Expr → Expr} (level : Level) :
      Context level.part u v f → Context level.whole u v f
  /-- The hole is in front of the last operand of a row. -/
  | left {u v t : List Char} {f : Expr → Expr} {right : Expr} {level : Level} {op : Operator} :
      op ∈ level.operators → Context level.whole u v f → Writes level.part t right →
      Context level.whole u (v ++ op.symbol :: t) fun e => .binary op (f e) right
  /-- The hole is in the last operand of a row. -/
  | right {u v s : List Char} {f : Expr → Expr} {left : Expr} {level : Level} {op : Operator} :
      op ∈ level.operators → Writes level.whole s left → Context level.part u v f →
      Context level.whole (s ++ op.symbol :: u) v fun e => .binary op left (f e)

namespace Context

variable {c : Category} {u v w : List Char} {f : Expr → Expr} {e e' : Expr}

/-- **Any factor fits into the hole.** -/
theorem fill (h : Context c u v f) (hw : Writes .factor w e) : Writes c (u ++ w ++ v) (f e) := by
  induction h with
  | hole => simpa using hw
  | brackets _ ih => simpa using ih.brackets
  | single level _ ih => exact ih.single level
  | left hop _ ht ih => simpa using ih.concat hop ht
  | right hop hs _ ih => simpa using hs.concat hop ih

/-- **What is around the hole has to do with a value**, and not with how it was computed. -/
theorem value_congr (h : Context c u v f) (he : e.value = e'.value) :
    (f e).value = (f e').value := by
  induction h with
  | hole => exact he
  | brackets _ ih => exact ih
  | single _ _ ih => exact ih
  | left _ _ _ ih => rw [Expr.value, Expr.value, ih]
  | right _ _ _ ih => rw [Expr.value, Expr.value, ih]

/-- **Equals may be put into the hole** as far as a limit on written numbers is concerned, if they
fit the limit themselves. -/
theorem fits_congr {limit : DigitLimit} (h : Context c u v f) (he : e.value = e'.value)
    (hfits : e.Fits limit ↔ e'.Fits limit) : (f e).Fits limit ↔ (f e').Fits limit := by
  induction h with
  | hole => exact hfits
  | brackets _ ih => exact ih
  | single _ _ ih => exact ih
  | left _ hcontext _ ih => rw [Expr.Fits, Expr.Fits, ih, hcontext.value_congr he]
  | right _ _ hcontext ih => rw [Expr.Fits, Expr.Fits, ih, hcontext.value_congr he]

end Context

/-- **A stretch that no derivation cuts**, where the text in front of it and the text behind it are
as they have to be: what is put together of parts is the stretch alone, or has the stretch in one of
its parts, and there the texts around it are again as they have to be. -/
structure Uncut (r : List Char) (P : List Char → List Char → Prop) : Prop where
  numeral : ∀ {u v : List Char} {x : Int}, P u v → IsNumeral (u ++ r ++ v) x → u = [] ∧ v = []
  brackets : ∀ {u v w : List Char} {x : Int}, P u v → Derives .expression w x →
    '(' :: w ++ [')'] = u ++ r ++ v →
      (u = [] ∧ v = []) ∨ ∃ u' v', P u' v' ∧ u = '(' :: u' ∧ v = v' ++ [')'] ∧ w = u' ++ r ++ v'
  operator : ∀ {u v s t : List Char} {x : Int} {c : Category} {op : Operator}, P u v →
    Derives c s x → s ++ op.symbol :: t = u ++ r ++ v →
      (∃ m, P u m ∧ s = u ++ r ++ m ∧ v = m ++ op.symbol :: t) ∨
        ∃ m, P m v ∧ u = s ++ op.symbol :: m ∧ t = m ++ r ++ v

/-- **What is not cut leaves a hole.** In every derivation of a text the stretch is a factor, and
without it the text is one with a hole. -/
theorem Uncut.exists_hole {r : List Char} {P : List Char → List Char → Prop} (hr : Uncut r P)
    {c : Category} {u v w : List Char} {x : Int} (h : Derives c w x) (hP : P u v)
    (hw : w = u ++ r ++ v) :
    ∃ e f, Writes .factor r e ∧ Context c u v f ∧ (f e).value = x := by
  induction h using Derives.induction_on_levels generalizing u v with
  | @numeral w x h =>
    obtain ⟨rfl, rfl⟩ := hr.numeral hP (hw ▸ h)
    obtain rfl : w = r := by simpa using hw
    obtain ⟨e, he, hx⟩ := (Derives.numeral h).exists_writes
    exact ⟨e, id, he, .hole, hx⟩
  | @brackets w x h ih =>
    rcases hr.brackets hP h hw with ⟨rfl, rfl⟩ | ⟨u, v, hP', rfl, rfl, rfl⟩
    · obtain rfl : '(' :: w ++ [')'] = r := by simpa using hw
      obtain ⟨e, he, hx⟩ := h.brackets.exists_writes
      exact ⟨e, id, he, .hole, hx⟩
    · obtain ⟨e, f, he, hcontext, hx⟩ := ih hP' rfl
      exact ⟨e, f, he, hcontext.brackets, hx⟩
  | single level _ ih =>
    obtain ⟨e, f, he, hcontext, hx⟩ := ih hP hw
    exact ⟨e, f, he, hcontext.single level, hx⟩
  | concat hop hs ht ihs iht =>
    rcases hr.operator hP hs hw with ⟨k, hP', rfl, rfl⟩ | ⟨k, hP', rfl, rfl⟩
    · obtain ⟨e, f, he, hcontext, rfl⟩ := ihs hP' rfl
      obtain ⟨right, hright, rfl⟩ := ht.exists_writes
      exact ⟨e, _, he, hcontext.left hop hright, rfl⟩
    · obtain ⟨e, f, he, hcontext, rfl⟩ := iht hP' rfl
      obtain ⟨left, hleft, rfl⟩ := hs.exists_writes
      exact ⟨e, _, he, .right hop hleft hcontext, rfl⟩

end RomanArithmetic
