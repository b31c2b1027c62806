import Mathlib.Data.List.TakeWhile
import RomanArithmetic.Evaluation.Action

/-!
# Evaluations under a limit

A limit on the digits of written numbers changes an evaluation in one way only: it ends with the
first step that cannot be written. Up to there it is the evaluation without a limit, and if every
step can be written it is the same to its end (`RomanArithmetic.Tree.cut_evaluate`).

So what an evaluation comes to and which steps it takes is to be found out once, without a limit,
and a limit asks only whether these steps can be written. The reason is that cutting a run is
compatible with the way runs are put together (`RomanArithmetic.Run.cut_bind`), and that a limit is
looked at in one place, where a step is noted (`RomanArithmetic.Run.cut_note`).
-/

namespace RomanArithmetic

variable {α β : Type} (limit : DigitLimit)

theorem Item.writable_unlimited (item : Item) : item.Writable .unlimited := by
  cases item with
  | number value => exact DigitLimit.unlimited_allows value
  | symbol _ => exact trivial

theorem Step.writable_unlimited (step : Step) : step.Writable .unlimited := by
  cases step with
  | place _ _ value => exact DigitLimit.unlimited_allows value
  | fold left operator right result =>
    exact ⟨left.writable_unlimited, operator.writable_unlimited, right.writable_unlimited,
      result.writable_unlimited⟩

/-! ### Cutting a run -/

namespace Run

/-- **The run up to the first step that cannot be written**: the fault is that a number is too long,
if there is such a step, and otherwise nothing is changed. -/
def cut (run : Run α) : Run α :=
  if ∀ step ∈ run.steps, step.Writable limit then run
  else ⟨.error (.tooLong limit.digits), run.steps.takeWhile fun step => step.Writable limit⟩

variable {limit} {outcome : Except Fault α} {s t : List Step}

theorem cut_of_writable {run : Run α} (h : ∀ step ∈ run.steps, step.Writable limit) :
    run.cut limit = run :=
  if_pos h

theorem cut_of_not_writable {run : Run α} (h : ¬∀ step ∈ run.steps, step.Writable limit) :
    run.cut limit =
      ⟨.error (.tooLong limit.digits), run.steps.takeWhile fun step => step.Writable limit⟩ :=
  if_neg h

/-- Behind steps that can be written the cut goes on. -/
theorem cut_append_of_writable (hs : ∀ step ∈ s, step.Writable limit) :
    (⟨outcome, s ++ t⟩ : Run α).cut limit =
      ⟨((⟨outcome, t⟩ : Run α).cut limit).outcome,
        s ++ ((⟨outcome, t⟩ : Run α).cut limit).steps⟩ := by
  by_cases ht : ∀ step ∈ t, step.Writable limit
  · rw [cut_of_writable (List.forall_mem_append.mpr ⟨hs, ht⟩), cut_of_writable ht]
  · rw [cut_of_not_writable fun h => ht (List.forall_mem_append.mp h).2, cut_of_not_writable ht,
      List.takeWhile_append_of_pos (by simpa using hs)]

/-- What is noted behind a step that cannot be written does not matter. -/
theorem cut_append_of_not_writable (hs : ¬∀ step ∈ s, step.Writable limit) :
    (⟨outcome, s ++ t⟩ : Run α).cut limit =
      ⟨.error (.tooLong limit.digits), s.takeWhile fun step => step.Writable limit⟩ := by
  rw [cut_of_not_writable fun h => hs (List.forall_mem_append.mp h).1, List.takeWhile_append,
    if_neg]
  intro hlen
  have hself := (List.takeWhile_prefix _).eq_of_length hlen
  exact hs (by simpa using List.takeWhile_eq_self_iff.mp hself)

/-- **Runs in a row are cut one by one.** -/
theorem cut_bind (run : Run α) (next : α → Run β) :
    (run >>= next).cut limit = run.cut limit >>= fun a => (next a).cut limit := by
  obtain ⟨outcome, s⟩ := run
  by_cases hs : ∀ step ∈ s, step.Writable limit
  · have hcut : (⟨outcome, s⟩ : Run α).cut limit = ⟨outcome, s⟩ := cut_of_writable hs
    rw [hcut]
    cases outcome with
    | error fault => exact cut_of_writable hs
    | ok a => exact cut_append_of_writable hs
  · have hcut : (⟨outcome, s⟩ : Run α).cut limit = _ := cut_of_not_writable hs
    rw [hcut, mk_error_bind]
    cases outcome with
    | error fault => exact cut_of_not_writable hs
    | ok a => exact cut_append_of_not_writable hs

/-- **A run that comes to something under a limit** comes to the same without one, with the same
steps, and these can all be written. -/
theorem cut_eq_ok_iff {run : Run α} {a : α} :
    run.cut limit = ⟨.ok a, s⟩ ↔ run = ⟨.ok a, s⟩ ∧ ∀ step ∈ s, step.Writable limit := by
  constructor
  · intro h
    by_cases hs : ∀ step ∈ run.steps, step.Writable limit
    · rw [cut_of_writable hs] at h
      exact ⟨h, by simpa [h] using hs⟩
    · rw [cut_of_not_writable hs] at h
      cases (Run.mk.inj h).1
  · rintro ⟨rfl, hs⟩
    exact cut_of_writable hs

/-- A run without steps is not cut. -/
@[simp] theorem cut_mk_nil : (⟨outcome, []⟩ : Run α).cut limit = ⟨outcome, []⟩ :=
  cut_of_writable (List.forall_mem_nil _)

@[simp] theorem cut_ofExcept : (ofExcept outcome).cut limit = ofExcept outcome :=
  cut_mk_nil

@[simp] theorem cut_fail (fault : Fault) : (fail fault : Run α).cut limit = fail fault :=
  cut_mk_nil

/-- **Where a step is noted the limit is looked at**, and nowhere else. -/
theorem cut_note (step : Step) : (note .unlimited step).cut limit = note limit step := by
  rw [note, note, if_pos step.writable_unlimited]
  by_cases h : step.Writable limit
  · rw [if_pos h, cut_of_writable (List.forall_mem_singleton.mpr h)]
  · rw [if_neg h, cut_of_not_writable (mt List.forall_mem_singleton.mp h)]
    simp [fail, h]

end Run

/-! ### Cutting an evaluation -/

open Run

/-- **A fold under a limit** is the fold without one, up to the first step that cannot be
written. -/
theorem Item.cut_foldFrom (left : Item) (items : List Item) :
    (foldFrom .unlimited left items).cut limit = foldFrom limit left items := by
  induction left, items using foldFrom.induct with
  | case1 left => simp only [foldFrom, pure_eq, cut_mk_nil]
  | case2 left key => simp only [foldFrom, cut_fail]
  | case3 left key right rest ih => simp only [foldFrom, cut_bind, cut_ofExcept, cut_note, ih]

theorem Item.cut_foldAll (items : List Item) :
    (foldAll .unlimited items).cut limit = foldAll limit items := by
  cases items with
  | nil => exact cut_fail _
  | cons first rest => exact cut_foldFrom limit first rest

theorem Rule.cut_act (R : Rule) (items : List Item) :
    (R.act .unlimited items).cut limit = R.act limit items := by
  have hvalued : ∀ (R : Rule) (place : Place) (w : List Char),
      (act.valued .unlimited R place w).cut limit = act.valued limit R place w := by
    intro R place w
    simp only [act.valued, cut_bind, cut_note, pure_eq, cut_mk_nil]
  cases R with
  | thousands | numeral => exact cut_mk_nil
  | hundreds | tens | ones => exact hvalued _ _ _
  | term | expression => exact Item.cut_foldAll limit items
  | factor =>
    simp only [act]
    cases items.filterMap Item.number? <;> exact cut_mk_nil
  | calculation => cases items <;> exact cut_mk_nil

namespace Tree

mutual

/-- **An evaluation under a limit** is the evaluation without one, up to the first step that cannot
be written. -/
theorem cut_evaluate : ∀ t : Tree, (t.evaluate .unlimited).cut limit = t.evaluate limit
  | leaf _ _ _ => cut_mk_nil
  | node R _ _ ts => by simp only [evaluate, cut_bind, cut_evaluateAll ts, R.cut_act limit]

theorem cut_evaluateAll : ∀ ts : List Tree,
    (evaluateAll .unlimited ts).cut limit = evaluateAll limit ts
  | [] => cut_mk_nil
  | t :: ts => by
    simp only [evaluateAll, cut_bind, cut_evaluate t, cut_evaluateAll ts, pure_eq, cut_mk_nil]

end

theorem evaluate_eq_ok_iff {t : Tree} {item : Item} {steps : List Step} :
    t.evaluate limit = ⟨.ok item, steps⟩ ↔
      t.evaluate .unlimited = ⟨.ok item, steps⟩ ∧ ∀ step ∈ steps, step.Writable limit := by
  rw [← t.cut_evaluate limit, cut_eq_ok_iff]

theorem cut_value (t : Tree) : (t.value .unlimited).cut limit = t.value limit := by
  rw [value, value, cut_bind, t.cut_evaluate limit]
  congr 1
  funext item
  cases item <;> exact cut_mk_nil

variable {limit} {t u : Tree} {outcome : Except Fault Int} {steps : List Step}

/-- **A limit cuts equal runs at the same step.** -/
theorem value_congr (h : t.value .unlimited = u.value .unlimited) (limit : DigitLimit) :
    t.value limit = u.value limit := by
  rw [← cut_value, h, cut_value]

/-- **If all steps can be written**, a limit makes no difference. -/
theorem value_of_writable (h : t.value .unlimited = ⟨outcome, steps⟩)
    (hsteps : ∀ step ∈ steps, step.Writable limit) : t.value limit = ⟨outcome, steps⟩ := by
  rw [← cut_value, h]
  exact cut_of_writable hsteps

/-- **If a step cannot be written**, a number is too long, and the steps before it are noted. -/
theorem value_of_not_writable (h : t.value .unlimited = ⟨outcome, steps⟩)
    (hsteps : ¬∀ step ∈ steps, step.Writable limit) : t.value limit =
      ⟨.error (.tooLong limit.digits), steps.takeWhile fun step => step.Writable limit⟩ := by
  rw [← cut_value, h]
  exact cut_of_not_writable hsteps

end Tree

end RomanArithmetic
