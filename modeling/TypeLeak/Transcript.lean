import TypeLeak.Report
import TypeLeak.Toolchain

/-! # Transcripts

What a check does besides reaching its result, in order: what it reports, what it asks, what it
launches and the file tree it does so in, and what it only warns about.
-/

namespace TypeLeak

/-- A question to the operator. -/
inductive Question where
  | select (message : String) (candidates : List String)
  | input (message : String)
  deriving Repr, DecidableEq

/-- One thing that a check does. -/
inductive Event where
  | reported (output : Output)
  | asked (question : Question)
  | launched (invocation : Invocation) (tree : FileTree)
  | warned
  deriving Repr

namespace Transcript

/-- A report as events. -/
def ofReport (report : List Output) : List Event := report.map .reported

/-- Everything reported. -/
def report (events : List Event) : List Output :=
  events.filterMap fun
    | .reported output => some output
    | _ => none

/-- Everything asked. -/
def questions (events : List Event) : List Question :=
  events.filterMap fun
    | .asked question => some question
    | _ => none

/-- Everything launched. -/
def launches (events : List Event) : List (Invocation × FileTree) :=
  events.filterMap fun
    | .launched invocation tree => some (invocation, tree)
    | _ => none

/-- How many warnings there were. -/
def warnings (events : List Event) : Nat :=
  events.countP fun
    | .warned => true
    | _ => false

/-- A report is reported as it is. -/
@[simp] theorem report_ofReport (r : List Output) : report (ofReport r) = r := by
  induction r with
  | nil => rfl
  | cons o r ih => simp_all [report, ofReport]

/-- What is reported in two parts is reported one after the other. -/
@[simp] theorem report_append (xs ys : List Event) : report (xs ++ ys) = report xs ++ report ys :=
  List.filterMap_append

/-- So is what is asked. -/
@[simp] theorem questions_append (xs ys : List Event) :
    questions (xs ++ ys) = questions xs ++ questions ys :=
  List.filterMap_append

/-- So is what is launched. -/
@[simp] theorem launches_append (xs ys : List Event) :
    launches (xs ++ ys) = launches xs ++ launches ys :=
  List.filterMap_append

/-- Reporting asks nothing. -/
@[simp] theorem questions_ofReport (r : List Output) : questions (ofReport r) = [] := by
  simp [questions, ofReport]

/-- It launches nothing. -/
@[simp] theorem launches_ofReport (r : List Output) : launches (ofReport r) = [] := by
  simp [launches, ofReport]

end Transcript

end TypeLeak
