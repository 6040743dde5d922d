import Mathlib.Logic.Basic
import TypeLeak.Check

/-!
# Which files are traced

The files to trace come from the first of three sources that has any: those provided, the sources of
the entry points, and the operator's answer.  Deciding on them launches nothing, and asks something
exactly when the first two sources have nothing.

## Key results

- `questions_ask_ne_nil`: a conversation asks at least once
- `of_ask`: what a conversation can come to
- `chooseFiles_result`: which files are decided on
- `questions_chooseFiles_ne_nil_iff`: when the operator is asked
- `check_eq_of_files`: what a check comes to with files decided on, and its siblings
-/

namespace TypeLeak

open Transcript

namespace Transcript

/-- A question launches nothing. -/
@[simp] theorem launches_cons_asked (question : Question) (events : List Event) :
    launches (.asked question :: events) = launches events := rfl

/-- A question is one of the questions. -/
@[simp] theorem questions_cons_asked (question : Question) (events : List Event) :
    questions (.asked question :: events) = question :: questions events := rfl

/-- A report asks nothing. -/
@[simp] theorem questions_cons_reported (output : Output) (events : List Event) :
    questions (.reported output :: events) = questions events := rfl

/-- Warnings launch nothing. -/
@[simp] theorem launches_warnings {α : Type} (xs : List α) :
    launches (xs.map fun _ => .warned) = [] := by
  induction xs with
  | nil => rfl
  | cons x xs ih => exact ih

/-- Warnings ask nothing. -/
@[simp] theorem questions_warnings {α : Type} (xs : List α) :
    questions (xs.map fun _ => .warned) = [] := by
  induction xs with
  | nil => rfl
  | cons x xs ih => exact ih

/-- Warnings are not part of the report. -/
@[simp] theorem report_warnings {α : Type} (xs : List α) :
    report (xs.map fun _ => .warned) = [] := by
  induction xs with
  | nil => rfl
  | cons x xs ih => exact ih

end Transcript

namespace Prompt

/-! ## Conversations -/

/-- A selection launches nothing, however often it is repeated. -/
theorem launches_select (candidates : List String) (selections : List (List Nat)) :
    launches (select candidates selections).events = [] := by
  -- on the selections that are still to come: one is used up by each question
  induction selections with
  | nil => rfl
  | cons places later ih =>
    unfold select
    dsimp only
    split
    · -- an empty selection is answered with a warning and the same question again
      rw [List.cons_append, launches_cons_asked, launches_append, launches_ofReport, ih]
      rfl
    · rfl

/-- A selection asks at least once. -/
theorem questions_select_ne_nil (candidates : List String) (selections : List (List Nat)) :
    questions (select candidates selections).events ≠ [] := by
  cases selections with
  | nil => exact List.cons_ne_nil _ _
  | cons places later =>
    unfold select
    dsimp only
    split
    · rw [List.cons_append, questions_cons_asked]
      exact List.cons_ne_nil _ _
    · exact List.cons_ne_nil _ _

/-- A conversation launches nothing. -/
theorem launches_ask (operator : Operator) (candidates : List String) :
    launches (ask operator candidates).events = [] := by
  show launches (question operator candidates).events = []
  cases operator with
  | absent => rfl
  | script selections inputs =>
    unfold question
    dsimp only
    -- without candidates one line is read; otherwise the operator selects
    split
    · cases inputs <;> rfl
    · exact launches_select candidates selections

/-- A conversation asks at least once. -/
theorem questions_ask_ne_nil (operator : Operator) (candidates : List String) :
    questions (ask operator candidates).events ≠ [] := by
  show questions (question operator candidates).events ≠ []
  cases operator with
  | absent => exact List.cons_ne_nil _ _
  | script selections inputs =>
    unfold question
    dsimp only
    split
    · cases inputs <;> exact List.cons_ne_nil _ _
    · exact questions_select_ne_nil candidates selections

/-- A selection that comes to an end has some of the candidates. -/
theorem of_select {candidates files : List String} {selections : List (List Nat)}
    (h : (select candidates selections).result = .ok files) : files ≠ [] ∧ files ⊆ candidates := by
  induction selections with
  | nil => exact nomatch h
  | cons places later ih =>
    unfold select at h
    dsimp only at h
    split at h
    · -- an empty selection is not what it comes to
      exact ih h
    · rename_i hselected
      cases h
      refine ⟨hselected, fun file hfile => ?_⟩
      obtain ⟨place, -, hplace⟩ := List.mem_filterMap.1 hfile
      exact List.mem_of_getElem? hplace

/-- A conversation that comes to an end has the names that were typed, if there are no candidates,
    or else some of the candidates. -/
theorem of_ask {operator : Operator} {candidates files : List String}
    (h : (ask operator candidates).result = .ok files) :
    (candidates = [] ∧ ∃ selections line later,
        operator = .script selections (line :: later) ∧ files = names line) ∨
      (candidates ≠ [] ∧ files ≠ [] ∧ files ⊆ candidates) := by
  -- an absent operator brings no conversation to an end
  cases operator with
  | absent => exact nomatch h
  | script selections inputs =>
    change (question (.script selections inputs) candidates).result = .ok files at h
    unfold question at h
    dsimp only at h
    split at h
    · rename_i hcandidates
      cases inputs with
      | nil => exact nomatch h
      | cons line later =>
        cases h
        exact .inl ⟨hcandidates, selections, line, later, rfl, rfl⟩
    · rename_i hcandidates
      exact .inr ⟨hcandidates, of_select h⟩

end Prompt

/-! ## The decision -/

namespace World

variable (w : World) (operator : Operator) (p : Project)

/-- The sources of the entry points, in their order and as often as they are found. -/
def entrySources : List String :=
  p.manifest.entryPoints.flatMap fun entry => (w.traceEntry p.root entry).files.map Path.lossy

/-- The files to trace: those provided, else the sources of the entry points, else those that the
    operator chooses from the sources found in the project. -/
def filesToTrace (provided : List String) : Except Failure (List String) :=
  if provided ≠ [] then .ok provided
  else if w.entrySources p ≠ [] then .ok (w.entrySources p)
  else (Prompt.ask operator (w.sources p.root .standard)).result

/-- What the traces of the entry points found, one after the other. -/
theorem tracedFiles_traceEntries : tracedFiles (w.traceEntries p) = w.entrySources p := by
  unfold tracedFiles traceEntries entrySources
  rw [List.flatMap_map]

/-- Asking the operator launches nothing, the search for candidates included. -/
theorem launches_askOperator (root : Path) : launches (w.askOperator operator root).events = [] := by
  unfold askOperator
  rw [launches_append, launches_warnings, Prompt.launches_ask]
  rfl

/-- Asking the operator asks something. -/
theorem questions_askOperator_ne_nil (root : Path) :
    questions (w.askOperator operator root).events ≠ [] := by
  unfold askOperator
  rw [questions_append, questions_warnings, List.nil_append]
  exact Prompt.questions_ask_ne_nil operator _

/-- What deciding comes to, apart from the report: without entry points there are no sources of
    them, so the operator is asked in either case. -/
theorem chooseFiles_eq (provided : List String) :
    ∃ report, w.chooseFiles operator p provided =
      if provided ≠ [] then ⟨.ok provided, ofReport report⟩
      else if w.entrySources p ≠ [] then ⟨.ok (w.entrySources p), ofReport report⟩
      else
        ⟨(w.askOperator operator p.root).result,
          ofReport report ++ (w.askOperator operator p.root).events⟩ := by
  have htraced := w.tracedFiles_traceEntries p
  unfold chooseFiles
  by_cases hprovided : provided = []
  · -- the reports differ with the reason for asking
    simp only [hprovided, ne_eq, not_true_eq_false, if_false]
    by_cases hentries : p.manifest.entryPoints = []
    · have hsources : w.entrySources p = [] := by
        unfold entrySources
        rw [hentries]
        rfl
      simp only [hentries, hsources, if_true, not_true_eq_false, if_false]
      exact ⟨_, rfl⟩
    · simp only [hentries, if_false, htraced]
      by_cases hsources : w.entrySources p = []
      · simp only [hsources, if_true, not_true_eq_false, if_false]
        exact ⟨_, rfl⟩
      · simp only [hsources, if_false, not_false_eq_true, if_true]
        exact ⟨_, rfl⟩
  · simp only [ne_eq, hprovided, not_false_eq_true, if_true]
    exact ⟨_, rfl⟩

/-- The files decided on are those provided, those of the entry points or those chosen. -/
theorem chooseFiles_result (provided : List String) :
    (w.chooseFiles operator p provided).result = w.filesToTrace operator p provided := by
  obtain ⟨report, hchoose⟩ := w.chooseFiles_eq operator p provided
  rw [hchoose]
  unfold filesToTrace
  -- the three sources, in the order in which they are looked at
  split
  · rfl
  split
  · rfl
  · rfl

/-- The decision launches nothing. -/
theorem launches_chooseFiles (provided : List String) :
    launches (w.chooseFiles operator p provided).events = [] := by
  obtain ⟨report, hchoose⟩ := w.chooseFiles_eq operator p provided
  rw [hchoose]
  split
  · exact launches_ofReport report
  split
  · exact launches_ofReport report
  · rw [launches_append, launches_ofReport, launches_askOperator]
    rfl

/-- The operator is asked if nothing was provided and the entry points have no sources. -/
theorem questions_chooseFiles_ne_nil_iff (provided : List String) :
    questions (w.chooseFiles operator p provided).events ≠ [] ↔
      provided = [] ∧ w.entrySources p = [] := by
  obtain ⟨report, hchoose⟩ := w.chooseFiles_eq operator p provided
  rw [hchoose]
  split
  · rename_i hprovided
    rw [questions_ofReport]
    exact iff_of_false (fun h => h rfl) fun h => hprovided h.1
  rename_i hprovided
  split
  · -- only in the last case something besides the report is done
    rename_i hsources
    rw [questions_ofReport]
    exact iff_of_false (fun h => h rfl) fun h => hsources h.2
  · rename_i hsources
    rw [questions_append, questions_ofReport, List.nil_append]
    exact iff_of_true (w.questions_askOperator_ne_nil operator p.root)
      ⟨not_not.1 hprovided, not_not.1 hsources⟩

/-! ## The check by what was decided -/

section Check

variable {w operator p} {toolchain : Toolchain} {o : Options}

/-- Without a project a check does nothing. -/
theorem check_eq_of_no_project {failure : Failure} (hproject : o.project w = .error failure) :
    w.check toolchain operator o = ⟨.error failure, w, []⟩ := by
  unfold check
  rw [hproject]

/-- With a project and no decision, a check fails. -/
theorem check_eq_of_undecided {failure : Failure} (hproject : o.project w = .ok p)
    (hchosen : w.filesToTrace operator p o.files = .error failure) :
    w.check toolchain operator o =
      ⟨.error failure, w, (w.chooseFiles operator p o.files).events⟩ := by
  unfold check
  rw [hproject]
  dsimp only
  rw [chooseFiles_result, hchosen]

/-- With a project and no file to trace, a check says so. -/
theorem check_eq_of_nothing (hproject : o.project w = .ok p)
    (hchosen : w.filesToTrace operator p o.files = .ok []) :
    w.check toolchain operator o =
      ⟨.ok .noFiles, w,
        (w.chooseFiles operator p o.files).events ++ ofReport Report.noFiles⟩ := by
  unfold check
  rw [hproject]
  dsimp only
  rw [chooseFiles_result, hchosen]

/-- With a project and files to trace, a check traces them. -/
theorem check_eq_of_files {files : List String} (hproject : o.project w = .ok p)
    (hchosen : w.filesToTrace operator p o.files = .ok files) (hfiles : files ≠ []) :
    w.check toolchain operator o =
      ⟨(w.checkFiles toolchain p files).result, (w.checkFiles toolchain p files).world,
        (w.chooseFiles operator p o.files).events ++ (w.checkFiles toolchain p files).events⟩ := by
  -- `check` looks at whether the list has a first file
  obtain ⟨file, more, rfl⟩ := List.exists_cons_of_ne_nil hfiles
  unfold check
  rw [hproject]
  dsimp only
  rw [chooseFiles_result, hchosen]

end Check

end World

end TypeLeak
