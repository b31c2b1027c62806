import RomanArithmetic.Proofs.OneToOne
import RomanArithmetic.Proofs.Steps
import RomanArithmetic.Trace

/-!
# What a trace tells

A trace never changes the result, and what it tells is true: its lines account for the evaluation
(`RomanArithmetic.trace_accounts_for_evaluation`). Among the diagnostics, the lines on the steps of
an evaluation are known by their heading, and those on the places by the name of a rule behind it.
What these lines are is known from the steps (`RomanArithmetic.Accounts`), so what is left to do is
to tell the lines apart by what they begin with: no other line has the heading of a step, and the
line of an application goes on with a number, where that of a place goes on with a name. The text of
a place stands in its line as it is, between two marks, since there is nothing in a calculation that
would be escaped (`RomanArithmetic.quoted_text_of_mem_nodes`).

An evaluation that ends because a number is too long has told what it did before. Its lines are
those of an evaluation without a limit, up to the step that cannot be written.
-/

namespace RomanArithmetic

open RomanArithmetic.Tree (textAll)

/-! ### The lines of steps -/

namespace Trace

/-- What the line of a step begins with. -/
def stepHeading : String :=
  "DEBUG RomanEvaluator: "

/-- Whether a line reports a step. -/
def isStepLine (line : String) : Bool :=
  stepHeading.toList.isPrefixOf line.toList

/-- Whether a line reports the value of a place. -/
def isPlaceLine (line : String) : Bool :=
  [Rule.hundreds, .tens, .ones].any fun R => (stepHeading ++ R.name).toList.isPrefixOf line.toList

/-- Whether a line reports an application: it reports a step, and not the value of a place. -/
def isFoldLine (line : String) : Bool :=
  isStepLine line && !isPlaceLine line

theorem isStepLine_append (rest : String) : isStepLine (stepHeading ++ rest) = true := by
  rw [isStepLine, String.toList_append]
  exact List.isPrefixOf_iff_prefix.mpr (List.prefix_append _ _)

/-- A line that begins otherwise reports no step. -/
theorem isStepLine_append_eq_false {heading : String}
    (h : ¬heading.toList <+: stepHeading.toList ∧ ¬stepHeading.toList <+: heading.toList)
    (rest : String) : isStepLine (heading ++ rest) = false := by
  rw [isStepLine, String.toList_append, Bool.eq_false_iff]
  intro hprefix
  rcases List.prefix_or_prefix_of_prefix (List.prefix_append _ _)
    (List.isPrefixOf_iff_prefix.mp hprefix) with hle | hle
  · exact h.1 hle
  · exact h.2 hle

theorem isStepLine_readingLine (text : List Char) : isStepLine (readingLine text) = false :=
  isStepLine_append_eq_false (by decide) _

theorem isStepLine_resultLine (text : List Char) (v : Int) :
    isStepLine (resultLine text v) = false := by
  have hline : resultLine text v =
      "[RomanParser] " ++ quoted text ++ " -> " ++ toString v := rfl
  rw [hline, String.append_assoc, String.append_assoc]
  exact isStepLine_append_eq_false (by decide) _

theorem isStepLine_failureLine : isStepLine failureLine = false := by decide

/-- The line of a place is the line of a step. -/
theorem isStepLine_of_isPlaceLine {line : String} (h : isPlaceLine line = true) :
    isStepLine line = true := by
  obtain ⟨R, -, hR⟩ := List.any_eq_true.mp h
  rw [String.toList_append] at hR
  have hprefix := (List.prefix_append _ _).trans (List.isPrefixOf_iff_prefix.mp hR)
  exact List.isPrefixOf_iff_prefix.mpr hprefix

theorem isStepLine_of_isFoldLine {line : String} (h : isFoldLine line = true) :
    isStepLine line = true :=
  (Bool.and_eq_true_iff.mp h).1

/-- The name of a rule behind the heading makes the line of a place. -/
theorem isPlaceLine_append {R : Rule} {place : Place} (h : R.noted? = some place) (rest : String) :
    isPlaceLine (stepHeading ++ R.name ++ rest) = true := by
  refine List.any_eq_true.mpr ⟨R, ?_, ?_⟩
  · cases R with
    | hundreds | tens | ones => decide
    | thousands | numeral | factor | term | expression | calculation => cases h
  · rw [String.toList_append (s := stepHeading ++ R.name)]
    exact List.isPrefixOf_iff_prefix.mpr (List.prefix_append _ _)

/-- A number is written with digits and perhaps a sign. -/
theorem mem_toString_int {a : Int} {x : Char} (hx : x ∈ (toString a).toList) :
    x = '-' ∨ x.isDigit = true := by
  have hdigits : ∀ n : Nat, x ∈ n.repr.toList → x.isDigit = true := by
    intro n hn
    rw [Nat.toList_repr] at hn
    exact Nat.isDigit_of_mem_toDigits (by decide) (by decide) hn
  rw [Int.toString_eq_repr, Int.repr_eq_if] at hx
  split at hx
  · exact Or.inr (hdigits _ hx)
  · rw [String.toList_append, List.mem_append] at hx
    rcases hx with hx | hx
    · exact Or.inl (List.mem_singleton.mp hx)
    · exact Or.inr (hdigits _ hx)

theorem toString_int_ne_nil (a : Int) : (toString a).toList ≠ [] := by
  rw [Int.toString_eq_repr, Int.repr_eq_if]
  split
  · rw [Nat.toList_repr]
    exact Nat.toDigits_ne_nil
  · rw [String.toList_append]
    exact List.append_ne_nil_of_left_ne_nil (by decide) _

/-- A number behind the heading makes no line of a place. -/
theorem isPlaceLine_append_int (a : Int) (rest : String) :
    isPlaceLine (stepHeading ++ (toString a ++ rest)) = false := by
  refine List.any_eq_false.mpr fun R hR hprefix => ?_
  rw [String.toList_append, String.toList_append, String.toList_append] at hprefix
  have hname := (List.prefix_append_right_inj _).mp (List.isPrefixOf_iff_prefix.mp hprefix)
  obtain ⟨y, letters, hletters, hsign, hdigit⟩ : ∃ y letters, R.name.toList = y :: letters ∧
      y ≠ '-' ∧ y.isDigit = false := by
    cases R <;> exact ⟨_, _, rfl, by decide, by decide⟩
  obtain ⟨x, digits, hdigits⟩ := List.exists_cons_of_ne_nil (toString_int_ne_nil a)
  -- the name would begin with the first character of the number
  rw [hletters, hdigits, List.cons_append, List.cons_prefix_cons] at hname
  obtain rfl := hname.1
  rcases mem_toString_int (hdigits ▸ List.mem_cons_self) with hx | hx
  · exact hsign hx
  · exact Bool.false_ne_true (hdigit.symm.trans hx)

end Trace

/-- The line of an application. -/
def Application.line (a : Application) : String :=
  "DEBUG RomanEvaluator: " ++ toString a.left ++ " " ++ String.singleton a.operator.symbol ++ " " ++
    toString a.right ++ " -> " ++ toString a.result

namespace Tree

/-- The line of a node whose value is noted: the name of its rule, its text between two marks, and
the value of the place. -/
def placeLine? : Tree → Option String
  | leaf _ _ _ => none
  | node R _ _ ts => R.noted?.map fun place =>
    "DEBUG RomanEvaluator: " ++ R.name ++ " '" ++ String.ofList (textAll ts) ++ "' -> " ++
      toString (place.value (textAll ts))

end Tree

namespace Step

theorem line_place (R : Rule) (w : List Char) (v : Int) : (place R w v).line =
    Trace.stepHeading ++ R.name ++ (" " ++ (quoted w ++ (" -> " ++ toString v))) := by
  have hline : (place R w v).line =
      Trace.stepHeading ++ R.name ++ " " ++ quoted w ++ " -> " ++ toString v := rfl
  rw [hline]
  simp only [String.append_assoc]

theorem isStepLine_line (s : Step) : Trace.isStepLine s.line = true := by
  cases s with
  | place R w v =>
    rw [line_place, String.append_assoc]
    exact Trace.isStepLine_append _
  | fold left operator right result =>
    have hline : (fold left operator right result).line = Trace.stepHeading ++ left.toText ++
        " " ++ operator.toText ++ " " ++ right.toText ++ " -> " ++ result.toText := rfl
    rw [hline]
    simp only [String.append_assoc]
    exact Trace.isStepLine_append _

/-- **The line of an application** is not taken for that of a place. -/
theorem isPlaceLine_line_step (a : Application) : Trace.isPlaceLine a.step.line = false := by
  have hline : a.step.line = Trace.stepHeading ++ toString a.left ++ " " ++
      String.singleton a.operator.symbol ++ " " ++ toString a.right ++ " -> " ++
        toString a.result := rfl
  rw [hline]
  simp only [String.append_assoc]
  exact Trace.isPlaceLine_append_int _ _

/-- The line of a place is one. -/
theorem isPlaceLine_line_of_note? {R : Rule} {w : List Char} {s : Step} (h : R.note? w = some s) :
    Trace.isPlaceLine s.line = true := by
  obtain ⟨place, hR, rfl⟩ := Option.map_eq_some_iff.mp h
  rw [line_place]
  exact Trace.isPlaceLine_append hR _

end Step

/-! ### The lines of a calculation -/

variable {limit : DigitLimit} {text : List Char} {tree x : Tree} {v : Int} {steps : List Step}
  {outcome : Except Fault Int} {applications : List Application} {verbosity : Verbosity}
  {input : Input}

/-- **The text of a node is shown as it is**: no character of a calculation is escaped. -/
theorem quoted_text_of_mem_nodes (h : parse text = .ok tree) (hx : x ∈ tree.nodes) :
    quoted x.text = "'" ++ String.ofList x.text ++ "'" := by
  have hplain : (numeralLetters ++ signs).all fun c => Quoted.IsPlain c := by decide +kernel
  obtain ⟨v, hv⟩ := Accepted.exists_derives ⟨tree, h⟩
  refine quoted_eq_of_forall fun c hc => ?_
  rw [(text_eq_extract_of_mem_nodes h hx).2, List.extract_eq_take_drop] at hc
  have hmem := hv.mem_letters_append_signs (List.mem_of_mem_drop (List.mem_of_mem_take hc))
  exact of_decide_eq_true (List.all_eq_true.mp hplain c hmem)

/-- The line of a noted node. -/
theorem map_line_note? (h : parse text = .ok tree) (hx : x ∈ tree.nodes) :
    x.note?.map Step.line = x.placeLine? := by
  cases x with
  | leaf _ _ _ => rfl
  | node R p q ts =>
    have hquoted := quoted_text_of_mem_nodes h hx
    rw [Tree.text] at hquoted
    have hopening : " '" = " " ++ "'" := by decide
    have hclosing : "' -> " = "'" ++ " -> " := by decide
    rw [Tree.note?, Rule.note?, Tree.placeLine?, Option.map_map]
    refine Option.map_congr fun place _ => ?_
    rw [Function.comp_apply, Step.line_place, hquoted, hopening, hclosing, Trace.stepHeading]
    simp only [String.append_assoc]

/-- **The lines of a calculation are told apart as its steps are.** -/
theorem isPlaceLine_line_of_mem (h : parse text = .ok tree)
    (hv : tree.value limit = ⟨.ok v, steps⟩) (haccounts : Accounts applications text v steps) :
    ∀ s ∈ steps, Trace.isPlaceLine s.line = s.isPlace ∧ Trace.isFoldLine s.line = s.isFold := by
  have hplaces := (places_of_value_eq_ok h hv).1
  intro s hs
  rw [Trace.isFoldLine, s.isStepLine_line, Bool.true_and]
  cases s with
  | place R w n =>
    have hmem : Step.place R w n ∈ steps.filter Step.isPlace := List.mem_filter.mpr ⟨hs, rfl⟩
    rw [hplaces] at hmem
    obtain ⟨x, -, hx⟩ := List.mem_filterMap.mp hmem
    cases x with
    | leaf _ _ _ => cases hx
    | node _ _ _ _ =>
      rw [Step.isPlaceLine_line_of_note? hx]
      exact ⟨rfl, rfl⟩
  | fold l o r n =>
    have hmem : Step.fold l o r n ∈ steps.filter Step.isFold := List.mem_filter.mpr ⟨hs, rfl⟩
    rw [haccounts.folds_eq] at hmem
    obtain ⟨a, -, ha⟩ := List.mem_map.mp hmem
    rw [← ha, Step.isPlaceLine_line_step]
    exact ⟨rfl, rfl⟩

/-- The lines of the applications, and the lines of the places. -/
theorem filter_lines (h : parse text = .ok tree) (hv : tree.value limit = ⟨.ok v, steps⟩)
    (haccounts : Accounts applications text v steps) :
    (steps.map Step.line).filter Trace.isFoldLine = applications.map Application.line ∧
      (steps.map Step.line).filter Trace.isPlaceLine = tree.digits.filterMap Tree.placeLine? := by
  have hkinds := isPlaceLine_line_of_mem h hv haccounts
  have hfolds : steps.filter (Trace.isFoldLine ∘ Step.line) = steps.filter Step.isFold :=
    List.filter_congr fun s hs => (hkinds s hs).2
  have hplaces : steps.filter (Trace.isPlaceLine ∘ Step.line) = steps.filter Step.isPlace :=
    List.filter_congr fun s hs => (hkinds s hs).1
  rw [List.filter_map, List.filter_map, hfolds, hplaces, haccounts.folds_eq,
    (places_of_value_eq_ok h hv).1, List.map_map, List.map_filterMap]
  exact ⟨rfl, List.filterMap_congr fun x hx => map_line_note? h (List.mem_filter.mp hx).1⟩

/-! ### The visits to the nodes -/

namespace Tree

mutual

/-- **Nodes are visited in the order in which they are listed**, to the end if there is no fault. -/
theorem visited_prefix_nodes (limit : DigitLimit) : ∀ t : Tree, t.visited limit <+: t.nodes ∧
    ∀ item, (t.evaluate limit).outcome = .ok item → t.visited limit = t.nodes
  | leaf _ _ _ => ⟨List.prefix_rfl, fun _ _ => rfl⟩
  | node R p q ts => by
    obtain ⟨hpre, hall⟩ := visitedAll_prefix_nodes limit ts
    rw [visited, nodes_node]
    refine ⟨List.cons_prefix_cons.mpr ⟨rfl, hpre⟩, fun item h => ?_⟩
    have hnode := Run.eq_mk_of_outcome_eq h
    obtain ⟨items, before, -, hitems, -, -⟩ := evaluate_node_eq_ok_iff.mp hnode
    rw [hall items (by rw [hitems])]

theorem visitedAll_prefix_nodes (limit : DigitLimit) : ∀ ts : List Tree,
    visitedAll limit ts <+: ts.flatMap nodes ∧
      ∀ items, (evaluateAll limit ts).outcome = .ok items → visitedAll limit ts = ts.flatMap nodes
  | [] => ⟨List.prefix_rfl, fun _ _ => rfl⟩
  | t :: ts => by
    obtain ⟨hpre, hnodes⟩ := visited_prefix_nodes limit t
    obtain ⟨hpreAll, hall⟩ := visitedAll_prefix_nodes limit ts
    rw [visitedAll, List.flatMap_cons]
    cases houtcome : (t.evaluate limit).outcome with
    | ok item =>
      rw [hnodes item houtcome]
      refine ⟨(List.prefix_append_right_inj _).mpr hpreAll, fun items h => ?_⟩
      have hitems := Run.eq_mk_of_outcome_eq h
      obtain ⟨_, _, rest, _, -, hrest, -, -⟩ := evaluateAll_cons_eq_ok_iff.mp hitems
      rw [hall rest (by rw [hrest])]
    | error fault =>
      refine ⟨?_, fun items h => ?_⟩
      · rw [List.append_nil]
        exact hpre.trans (List.prefix_append _ _)
      · have hitems := Run.eq_mk_of_outcome_eq h
        obtain ⟨_, _, _, _, ht, -, -, -⟩ := evaluateAll_cons_eq_ok_iff.mp hitems
        rw [ht] at houtcome
        cases houtcome

end

end Tree

/-! ### What a trace consists of -/

namespace Trace

/-- **A trace has the result of the evaluation**, whatever is reported. -/
theorem result_ofInput (limit : DigitLimit) (verbosity : Verbosity) (input : Input) :
    (ofInput limit verbosity input).result = evaluate limit input := by
  rw [ofInput, evaluate]
  cases input.canonical with
  | error refusal => rfl
  | ok text => exact result_ofText limit verbosity text

theorem eq_of_mem_linesIf {switch : Bool} {line line' : String}
    (h : line ∈ linesIf switch [line']) : line = line' := by
  cases switch with
  | false => exact absurd h List.not_mem_nil
  | true => exact List.mem_singleton.mp h

/-- Nothing is reported that was not asked for. -/
theorem silent (limit : DigitLimit) (input : Input) :
    (ofInput limit ⟨false, false⟩ input).output = [] ∧
      (ofInput limit ⟨false, false⟩ input).diagnostics = [] := by
  rw [ofInput]
  cases input.canonical with
  | error refusal => exact ⟨rfl, rfl⟩
  | ok text =>
    dsimp only
    unfold ofText
    cases parse text with
    | error failure => exact ⟨rfl, rfl⟩
    | ok tree => rcases h : tree.value limit with ⟨_ | _, _⟩ <;> simp [h, linesIf]

/-- **A text that cannot be read** has no line but that it is read and that it cannot be read. -/
theorem ofText_of_parse_eq_error {failure : ParseFailure} (limit : DigitLimit)
    (verbosity : Verbosity) (h : parse text = .error failure) :
    (ofText limit verbosity text).output = [] ∧
      ∀ line ∈ (ofText limit verbosity text).diagnostics, isStepLine line = false := by
  unfold ofText
  rw [h]
  refine ⟨rfl, fun line hline => ?_⟩
  rcases List.mem_append.mp hline with hreading | hfailure
  · rw [eq_of_mem_linesIf hreading]
    exact isStepLine_readingLine text
  · rw [eq_of_mem_linesIf hfailure]
    exact isStepLine_failureLine

/-- **An evaluation that is not followed** reports neither nodes nor steps, whatever becomes of
it. -/
theorem of_debug_eq_false (limit : DigitLimit) (hdebug : verbosity.debug = false)
    (input : Input) : (ofInput limit verbosity input).output = [] ∧
      ∀ line ∈ (ofInput limit verbosity input).diagnostics, isStepLine line = false := by
  rw [ofInput]
  cases input.canonical with
  | error refusal => exact ⟨rfl, List.forall_mem_nil _⟩
  | ok text =>
    cases hparse : parse text with
    | error failure => exact ofText_of_parse_eq_error limit verbosity hparse
    | ok tree =>
      have honly : (ofText limit verbosity text).output = [] ∧
          (ofText limit verbosity text).diagnostics =
            linesIf verbosity.environment [readingLine text] := by
        unfold ofText
        rw [hparse]
        rcases hvalue : tree.value limit with ⟨_ | _, _⟩ <;> simp [hvalue, hdebug, linesIf]
      refine ⟨honly.1, fun line hline => ?_⟩
      rw [honly.2] at hline
      rw [eq_of_mem_linesIf hline]
      exact isStepLine_readingLine text

/-- **The diagnostics of a calculation**: the lines of its steps, between lines that report none. -/
theorem exists_diagnostics (hinput : input.canonical = .ok text) (h : parse text = .ok tree)
    (hv : tree.value limit = ⟨outcome, steps⟩) (hdebug : verbosity.debug = true) :
    ∃ before behind, (ofInput limit verbosity input).diagnostics =
        before ++ (steps.map Step.line ++ behind) ∧
      ∀ line ∈ before ++ behind, isStepLine line = false := by
  have hreading : ∀ line ∈ linesIf verbosity.environment [readingLine text],
      isStepLine line = false := fun line hline => by
    rw [eq_of_mem_linesIf hline]
    exact isStepLine_readingLine text
  rw [ofInput, hinput]
  dsimp only
  unfold ofText
  rw [h]
  cases outcome with
  | ok v =>
    refine ⟨linesIf verbosity.environment [readingLine text], [resultLine text v],
      by simp [hv, hdebug, linesIf], fun line hline => ?_⟩
    rcases List.mem_append.mp hline with hline | hline
    · exact hreading line hline
    · rw [List.mem_singleton.mp hline]
      exact isStepLine_resultLine text v
  | error fault =>
    refine ⟨linesIf verbosity.environment [readingLine text], [],
      by simp [hv, hdebug, linesIf], fun line hline => ?_⟩
    rw [List.append_nil] at hline
    exact hreading line hline

/-- **The lines on steps are those of the steps**: what else is reported of a calculation is told
apart from them. -/
theorem filter_diagnostics {selects : String → Bool} (hinput : input.canonical = .ok text)
    (h : parse text = .ok tree) (hv : tree.value limit = ⟨outcome, steps⟩)
    (hdebug : verbosity.debug = true)
    (hsteps : ∀ line, selects line = true → isStepLine line = true) :
    (ofInput limit verbosity input).diagnostics.filter selects =
      (steps.map Step.line).filter selects := by
  obtain ⟨before, behind, hdiagnostics, hother⟩ := exists_diagnostics hinput h hv hdebug
  obtain ⟨hbefore, hbehind⟩ := List.forall_mem_append.mp hother
  have hnone : ∀ lines : List String, (∀ line ∈ lines, isStepLine line = false) →
      lines.filter selects = [] := by
    refine fun lines hlines => List.filter_eq_nil_iff.mpr fun line hline hselects => ?_
    exact Bool.false_ne_true ((hlines line hline).symm.trans (hsteps line hselects))
  rw [hdiagnostics, List.filter_append, List.filter_append, hnone before hbefore,
    hnone behind hbehind, List.nil_append, List.append_nil]

/-- All lines on steps. -/
theorem filter_isStepLine (hinput : input.canonical = .ok text) (h : parse text = .ok tree)
    (hv : tree.value limit = ⟨outcome, steps⟩) (hdebug : verbosity.debug = true) :
    (ofInput limit verbosity input).diagnostics.filter isStepLine = steps.map Step.line := by
  rw [filter_diagnostics hinput h hv hdebug fun _ => id]
  refine List.filter_eq_self.mpr fun line hline => ?_
  obtain ⟨s, -, rfl⟩ := List.mem_map.mp hline
  exact s.isStepLine_line

/-- The output of a calculation: the visits, and when there is a value, that they are finished. -/
theorem output_of_parse_eq_ok (hinput : input.canonical = .ok text) (h : parse text = .ok tree)
    (hv : tree.value limit = ⟨outcome, steps⟩) (hdebug : verbosity.debug = true) :
    (ofInput limit verbosity input).output = visitLines limit tree ++
      match outcome with
      | .ok _ => [finishedLine]
      | .error _ => [] := by
  rw [ofInput, hinput]
  dsimp only
  unfold ofText
  rw [h]
  cases outcome <;> simp [hv, hdebug, linesIf]

end Trace

/-! ### Outcomes -/

theorem evaluate_of_canonical (limit : DigitLimit) (h : input.canonical = .ok text) :
    evaluate limit input = evaluateText limit text := by
  rw [evaluate, h]

/-- Where there is a value, there is a text with a tree that comes to it. -/
theorem exists_of_evaluate_eq_ok (h : evaluate limit input = .ok v) :
    ∃ text tree steps, input.canonical = .ok text ∧ parse text = .ok tree ∧
      tree.value limit = ⟨.ok v, steps⟩ := by
  cases hinput : input.canonical with
  | error refusal =>
    rw [evaluate, hinput] at h
    cases h
  | ok text =>
    rw [evaluate_of_canonical limit hinput] at h
    obtain ⟨tree, steps, hparse, hvalue⟩ := evaluateText_eq_ok_iff.mp h
    exact ⟨text, tree, steps, rfl, hparse, hvalue⟩

/-- **A fault is a number that is too long**, in a text that comes to a value without a limit. The
steps are the same up to the one that cannot be written. -/
theorem exists_of_evaluate_eq_faulty {fault : Fault}
    (h : evaluate limit input = .error (.faulty fault)) :
    fault = .tooLong limit.digits ∧ ∃ text tree v steps, input.canonical = .ok text ∧
      ¬Fits limit text ∧ parse text = .ok tree ∧ tree.value .unlimited = ⟨.ok v, steps⟩ ∧
      tree.value limit = ⟨.error fault, steps.takeWhile fun step => step.Writable limit⟩ := by
  cases hinput : input.canonical with
  | error refusal =>
    rw [evaluate, hinput] at h
    obtain rfl := Except.error.inj h
    rcases input with _ | (_ | _) | _ <;> cases hinput
  | ok text =>
    rw [evaluate_of_canonical limit hinput] at h
    rcases evaluateText_cases limit text with ⟨-, -, v, hv⟩ | ⟨⟨tree, hparse⟩, hfits, hlong⟩ |
      ⟨-, failure, -, -, hf⟩
    · cases h.symm.trans hv
    · obtain rfl : fault = .tooLong limit.digits := by simpa [hlong, eq_comm] using h
      obtain ⟨e, ⟨-, steps, hv, hsteps⟩, hwrites⟩ := exists_means_of_parse_eq_ok hparse
      have hvalue := Tree.value_eq_ok_iff.mpr hv
      have hlong := mt (hsteps limit).mp (mt hwrites.fits_iff.mpr hfits)
      exact ⟨rfl, text, tree, e.value, steps, rfl, hfits, hparse, hvalue,
        Tree.value_of_not_writable hvalue hlong⟩
    · cases h.symm.trans hf

/-- **An evaluation that is refused reports no step**, unless there was a fault in it that is
followed. -/
theorem Trace.of_refusal {refusal : Refusal} (h : evaluate limit input = .error refusal)
    (hfault : verbosity.debug = true → ∀ fault, refusal ≠ .faulty fault) :
    (ofInput limit verbosity input).output = [] ∧
      ∀ line ∈ (ofInput limit verbosity input).diagnostics, isStepLine line = false := by
  cases hdebug : verbosity.debug with
  | false => exact of_debug_eq_false limit hdebug input
  | true =>
    rw [ofInput]
    cases hinput : input.canonical with
    | error refusal => exact ⟨rfl, List.forall_mem_nil _⟩
    | ok text =>
      rw [evaluate_of_canonical limit hinput] at h
      cases hparse : parse text with
      | error failure => exact ofText_of_parse_eq_error limit verbosity hparse
      | ok tree =>
        rcases hvalue : tree.value limit with ⟨fault | v, steps⟩
        · rw [evaluateText_of_parse_eq_ok hparse hvalue] at h
          exact absurd (Except.error.inj h).symm (hfault hdebug fault)
        · rw [evaluateText_of_parse_eq_ok hparse hvalue] at h
          cases h

/-- **A trace accounts for the whole evaluation and never changes it.** The result is that of the
evaluation; nothing is reported where nothing is asked for; and an evaluation that is refused lists
no nodes and reports no step, unless it is followed and a number was too long. Without a limit on
written numbers none is, and under a limit this happens only if the text does not fit it. If the
evaluation of a text is followed to its value, all nodes are listed, and the lines on steps are
those of its steps: there is one line for each operator of the text, which shows what the operator
makes of two numbers, and the last one shows the value; the other lines are those of the hundreds,
the tens and the ones, with the texts that stand in these places, from the left of the text to the
right. If a number is too long, what is reported are the steps before it, and the nodes that were
visited before it. -/
theorem trace_accounts_for_evaluation (limit : DigitLimit) (verbosity : Verbosity)
    (input : Input) :
    let trace := Trace.ofInput limit verbosity input
    trace.result = evaluate limit input ∧
    (verbosity.debug = false → verbosity.environment = false →
      trace.output = [] ∧ trace.diagnostics = []) ∧
    (∀ refusal, evaluate limit input = .error refusal →
      (verbosity.debug = true → ∀ fault, refusal ≠ .faulty fault) →
      trace.output = [] ∧ ∀ line ∈ trace.diagnostics, Trace.isStepLine line = false) ∧
    (∀ fault, evaluate .unlimited input ≠ .error (.faulty fault)) ∧
    (∀ fault, evaluate limit input = .error (.faulty fault) →
      ∃ text, input.canonical = .ok text ∧ ¬Fits limit text) ∧
    (verbosity.debug = true → ∀ v, evaluate limit input = .ok v →
      ∃ (text : List Char) (tree : Tree) (steps : List Step) (applications : List Application),
        input.canonical = .ok text ∧ parse text = .ok tree ∧
        tree.value limit = ⟨.ok v, steps⟩ ∧
        trace.output =
          ["ASG: First pass"] ++ tree.nodes.map Tree.visitLine ++ ["ASG: Second pass"] ∧
        trace.diagnostics.filter Trace.isStepLine = steps.map Step.line ∧
        trace.diagnostics.filter Trace.isFoldLine = applications.map Application.line ∧
        (applications.map Application.operator).Perm (operatorsIn text) ∧
        (operatorsIn text ≠ [] → ∃ last, applications.getLast? = some last ∧ last.result = v) ∧
        trace.diagnostics.filter Trace.isPlaceLine = tree.digits.filterMap Tree.placeLine? ∧
        Tree.InOrder 0 tree.digits text.length ∧
        ∀ x ∈ tree.digits, x.text = text.extract x.start x.stop) ∧
    (verbosity.debug = true → ∀ fault, evaluate limit input = .error (.faulty fault) →
      fault = .tooLong limit.digits ∧
      ∃ (text : List Char) (tree : Tree) (v : Int) (steps : List Step) (visits : List Tree),
        input.canonical = .ok text ∧ parse text = .ok tree ∧
        tree.value .unlimited = ⟨.ok v, steps⟩ ∧
        trace.diagnostics.filter Trace.isStepLine =
          (steps.takeWhile fun step => step.Writable limit).map Step.line ∧
        visits <+: tree.nodes ∧
        trace.output = ["ASG: First pass"] ++ visits.map Tree.visitLine) := by
  intro trace
  refine ⟨Trace.result_ofInput limit verbosity input, ?_, fun _ => Trace.of_refusal, ?_,
    ?_, ?_, ?_⟩
  · intro hdebug henvironment
    obtain rfl : verbosity = ⟨false, false⟩ := by
      cases verbosity
      exact congrArg₂ Verbosity.mk hdebug henvironment
    exact Trace.silent limit input
  · intro fault h
    obtain ⟨-, text, -, -, -, -, hlong, -⟩ := exists_of_evaluate_eq_faulty h
    exact hlong (fits_unlimited text)
  · intro fault h
    obtain ⟨-, text, -, -, -, hinput, hlong, -⟩ := exists_of_evaluate_eq_faulty h
    exact ⟨text, hinput, hlong⟩
  · intro hdebug v hv
    obtain ⟨text, tree, steps, hinput, hparse, hvalue⟩ := exists_of_evaluate_eq_ok hv
    obtain ⟨applications, haccounts⟩ := exists_accounts_of_value_eq_ok hparse hvalue
    obtain ⟨hfolds, hplaces⟩ := filter_lines hparse hvalue haccounts
    have hvisited : tree.visited limit = tree.nodes := by
      refine (tree.visited_prefix_nodes limit).2 (.number v) ?_
      rw [Tree.value_eq_ok_iff.mp hvalue]
    refine ⟨text, tree, steps, applications, hinput, hparse, hvalue, ?_,
      Trace.filter_isStepLine hinput hparse hvalue hdebug, ?_, haccounts.operators_perm,
      haccounts.exists_last, ?_, (places_of_value_eq_ok hparse hvalue).2, ?_⟩
    · rw [← hvisited]
      exact Trace.output_of_parse_eq_ok hinput hparse hvalue hdebug
    · exact (Trace.filter_diagnostics hinput hparse hvalue hdebug
        fun _ => Trace.isStepLine_of_isFoldLine).trans hfolds
    · exact (Trace.filter_diagnostics hinput hparse hvalue hdebug
        fun _ => Trace.isStepLine_of_isPlaceLine).trans hplaces
    · intro x hx
      exact (text_eq_extract_of_mem_nodes hparse (List.mem_filter.mp hx).1).2
  · intro hdebug fault h
    obtain ⟨hfault, text, tree, v, steps, hinput, -, hparse, hvalue, hlimited⟩ :=
      exists_of_evaluate_eq_faulty h
    refine ⟨hfault, text, tree, v, steps, tree.visited limit, hinput, hparse, hvalue,
      Trace.filter_isStepLine hinput hparse hlimited hdebug,
      (tree.visited_prefix_nodes limit).1, ?_⟩
    exact (Trace.output_of_parse_eq_ok hinput hparse hlimited hdebug).trans (List.append_nil _)

/-- The trace of a product with a difference in brackets has a line for either operator, and the
last one shows the result; before them stand the lines of the three ones. -/
theorem trace_accounts_for_evaluation_product :
    let input := Input.text ['I', 'I', '*', '(', 'V', '-', 'I', ')']
    let trace := Trace.ofInput .standard ⟨true, false⟩ input
    evaluate .standard input = .ok 8 ∧ trace.result = .ok 8 ∧
      ∃ applications : List Application,
        trace.diagnostics.filter Trace.isFoldLine = applications.map Application.line ∧
        (applications.map Application.operator).Perm [.mul, .sub] ∧
        (∃ last, applications.getLast? = some last ∧ last.result = 8) ∧
        trace.diagnostics.filter Trace.isPlaceLine =
          ["DEBUG RomanEvaluator: ones 'II' -> 2", "DEBUG RomanEvaluator: ones 'V' -> 5",
            "DEBUG RomanEvaluator: ones 'I' -> 1"] := by
  intro input trace
  have heval : evaluate .standard input = .ok 8 := by decide +kernel
  obtain ⟨hresult, -, -, -, -, htrace, -⟩ :=
    trace_accounts_for_evaluation .standard ⟨true, false⟩ input
  obtain ⟨text, tree, _, applications, hinput, hparse, -, -, -, hfolds, hperm, hlast, hplaces, -⟩ :=
    htrace rfl 8 heval
  obtain rfl : ['I', 'I', '*', '(', 'V', '-', 'I', ')'] = text := Except.ok.inj hinput
  have hlines : (parse ['I', 'I', '*', '(', 'V', '-', 'I', ')']).toOption.map
      (fun tree => tree.digits.filterMap Tree.placeLine?) =
        some ["DEBUG RomanEvaluator: ones 'II' -> 2", "DEBUG RomanEvaluator: ones 'V' -> 5",
          "DEBUG RomanEvaluator: ones 'I' -> 1"] := by
    decide +kernel
  rw [hparse] at hlines
  exact ⟨heval, hresult.trans heval, applications, hfolds, hperm, hlast (by decide),
    hplaces.trans (Option.some.inj hlines)⟩

end RomanArithmetic
