import TypeLeak.Failure
import TypeLeak.Transcript

/-! # Asking for files

When no files can be found otherwise, the operator is asked.  With candidates the operator selects
some of them, and is asked again until at least one is selected; without candidates the operator
types a list, which may be empty.

The operator is a script of answers, or absent where there is no terminal.  A question that gets
no answer fails.
-/

namespace TypeLeak

/-- Who answers questions. -/
inductive Operator where
  /-- the answers to come: which candidates are selected, and what is typed -/
  | script (selections : List (List Nat)) (inputs : List String)
  /-- nobody -/
  | absent
  deriving Repr, DecidableEq

/-- The end of a conversation and what happened in it. -/
structure Asked where
  result : Except Failure (List String)
  events : List Event

namespace Prompt

/-- The question with candidates. -/
def selectQuestion (candidates : List String) : Question :=
  .select "Select TypeScript files to trace" candidates

/-- The question without candidates. -/
def inputQuestion : Question :=
  .input "No TypeScript files found. Enter files to trace (comma-separated)"

/-- What is said about an empty selection. -/
def emptySelection : List Output :=
  Report.warning [.plain "Select at least one file (space to toggle, enter to confirm)"]

/-- The candidates at the selected places. -/
def pick (candidates : List String) (places : List Nat) : List String :=
  places.filterMap fun i => candidates[i]?

/-- The names in a typed line: what stands between commas, without the blanks around it. -/
def names (line : String) : List String :=
  ((Text.splitAt ',' line).map Text.trim).filter (· ≠ "")

/-- Ask for a selection until one is not empty. -/
def select (candidates : List String) : List (List Nat) → Asked
  | [] => ⟨.error .noSelectionLeft, [.asked (selectQuestion candidates)]⟩
  | places :: later =>
    let selected := pick candidates places
    -- nothing selected is answered with a warning and the same question
    if selected = [] then
      let rest := select candidates later
      ⟨rest.result, .asked (selectQuestion candidates) :: Transcript.ofReport emptySelection ++
        rest.events⟩
    else ⟨.ok selected, [.asked (selectQuestion candidates)]⟩

/-- Ask for a typed list. -/
def input : List String → Asked
  | [] => ⟨.error .noInputLeft, [.asked inputQuestion]⟩
  | line :: _ => ⟨.ok (names line), [.asked inputQuestion]⟩

/-- Put the question that fits the candidates. -/
def question (operator : Operator) (candidates : List String) : Asked :=
  match operator with
  | .script selections inputs =>
    if candidates = [] then input inputs else select candidates selections
  | .absent =>
    ⟨.error .noTerminal,
      [.asked (if candidates = [] then inputQuestion else selectQuestion candidates)]⟩

/-- Ask the operator which files to trace, after everything reported so far is shown. -/
def ask (operator : Operator) (candidates : List String) : Asked :=
  let answer := question operator candidates
  -- the terminal is taken over, so what was reported has to be shown first
  ⟨answer.result, .reported .flush :: answer.events⟩

/-- The names in two lines joined by a comma are those of both in turn. -/
theorem names_append (a b : String) : names (a ++ "," ++ b) = names a ++ names b := by
  simp [names, Text.splitAt, Text.cut_append]

end Prompt

end TypeLeak
