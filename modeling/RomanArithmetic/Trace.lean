import RomanArithmetic.Calculator

/-!
# Traces

A trace is an evaluation that tells what it does. On the output it lists the nodes of the parse tree
in the order in which they are visited; among the diagnostics it reports the text that is read, that
it could not be read, each step of the evaluation, and the result. What is reported depends on two
switches. The result does not: it is the one of `RomanArithmetic.evaluate`. If the evaluation ends
with a fault, everything up to the fault has been reported.
-/

namespace RomanArithmetic

/-- What a trace reports. -/
structure Verbosity where
  /-- Whether this evaluation is to be followed. -/
  debug : Bool
  /-- Whether the environment asks every evaluation for a report. -/
  environment : Bool
deriving DecidableEq, Repr

/-- An evaluation and what it reported. -/
structure Trace where
  result : Except Refusal Int
  output : List String
  diagnostics : List String

/-- The report of a step. -/
def Step.line : Step → String
  | place rule text value =>
    "DEBUG RomanEvaluator: " ++ rule.name ++ " " ++ quoted text ++ " -> " ++ toString value
  | fold left operator right result =>
    "DEBUG RomanEvaluator: " ++ left.toText ++ " " ++ operator.toText ++ " " ++ right.toText ++
      " -> " ++ result.toText

namespace Tree

/-- The report of the visit to a node. -/
def visitLine (tree : Tree) : String :=
  let kind := if tree.leafText?.isSome then "Terminal" else "NonTerminal"
  "Visiting " ++ tree.ruleName ++ " [" ++ toString tree.start ++ "]  type:" ++ kind ++ " str:" ++
    tree.summary

end Tree

namespace Trace

/-- What stands for the account of where a failure was noticed. -/
def failureLine : String :=
  "<traceback>"

/-- The report of the text that is about to be read. -/
def readingLine (text : List Char) : String :=
  "DEBUG parse_calculation: " ++ quoted text

/-- The report of a result. -/
def resultLine (text : List Char) (value : Int) : String :=
  "[RomanParser] " ++ quoted text ++ " -> " ++ toString value

/-- The lines of a report that may be switched off. -/
def linesIf (switch : Bool) (lines : List String) : List String :=
  if switch then lines else []

/-- The report of the visits to the nodes of a tree, as far as an evaluation got. -/
def visitLines (limit : DigitLimit) (tree : Tree) : List String :=
  ["ASG: First pass"] ++ (tree.visited limit).map Tree.visitLine

/-- The report that nothing is left to be visited. -/
def finishedLine : String :=
  "ASG: Second pass"

/-- Follows the evaluation of a text that is read as it stands. -/
def ofText (limit : DigitLimit) (verbosity : Verbosity) (text : List Char) : Trace :=
  let reading := linesIf verbosity.environment [readingLine text]
  match parse text with
  | .error failure =>
    { result := .error (.unreadable failure)
      output := []
      diagnostics := reading ++
        linesIf (verbosity.debug || verbosity.environment) [failureLine] }
  | .ok tree =>
    let run := tree.value limit
    let visits := visitLines limit tree
    let steps := run.steps.map Step.line
    match run.outcome with
    | .ok value =>
      { result := .ok value
        output := linesIf verbosity.debug (visits ++ [finishedLine])
        diagnostics := reading ++ linesIf verbosity.debug (steps ++ [resultLine text value]) }
    | .error fault =>
      -- what was reported before the fault stays reported
      { result := .error (.faulty fault)
        output := linesIf verbosity.debug visits
        diagnostics := reading ++ linesIf verbosity.debug steps }

/-- Follows the evaluation of an input. -/
def ofInput (limit : DigitLimit) (verbosity : Verbosity) (input : Input) : Trace :=
  match input.canonical with
  | .error refusal => ⟨.error refusal, [], []⟩
  | .ok text => ofText limit verbosity text

theorem result_ofText (limit : DigitLimit) (verbosity : Verbosity) (text : List Char) :
    (ofText limit verbosity text).result = evaluateText limit text := by
  unfold ofText evaluateText
  cases parse text with
  | error failure => rfl
  | ok tree =>
    rcases h : tree.value limit with ⟨_ | _, _⟩
    · simp only [h]
      rfl
    · simp only [h]
      rfl

end Trace

end RomanArithmetic
