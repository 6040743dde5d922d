import Mathlib.Data.List.TakeWhile
import TypeLeak.Proofs.ShownReport

/-!
# How often a selection is asked for

A conversation about candidates puts one and the same question until an answer selects something.
What is asked, what is warned about and what comes of it are in step: each answer that selects
nothing takes one question and one warning, and the first one that selects something, or the failure
of the operator, takes one more question and ends the conversation.

## Key results

- `select_eq`: the events and the result of asking for a selection, in closed form
- `ask_eq`: those of a whole conversation about candidates
- `ask_until_selected`: how many questions and warnings there are, and which answer is returned
-/

namespace TypeLeak

namespace Operator

/-- What the operator selects, one answer after the other, as long as there are answers. -/
def answers (operator : Operator) (candidates : List String) : List (List String) :=
  match operator with
  | .script selections _ => selections.map (Prompt.pick candidates)
  | .absent => []

/-- How the operator fails when there is no answer. -/
def refusal : Operator → Failure
  | .script _ _ => .noSelectionLeft
  | .absent => .noTerminal

/-- The first answer that selects something, or the failure after all of them. -/
def selected (operator : Operator) (candidates : List String) : Except Failure (List String) :=
  match (operator.answers candidates).find? (· ≠ []) with
  | some answer => .ok answer
  | none => .error operator.refusal

/-- How many answers select nothing before one does. -/
def emptyAnswers (operator : Operator) (candidates : List String) : Nat :=
  ((operator.answers candidates).takeWhile (· = [])).length

end Operator

namespace Prompt

open Transcript

/-! ## The conversation in closed form -/

/-- A question about candidates that is answered with nothing, and the warning about that. -/
def unanswered (candidates : List String) : List Event :=
  .asked (selectQuestion candidates) :: ofReport emptySelection

/-- So many of these, one after the other. -/
def unansweredTimes (candidates : List String) (count : Nat) : List Event :=
  (List.replicate count (unanswered candidates)).flatten

/-- Once more is the first time and then the others. -/
theorem unansweredTimes_succ (candidates : List String) (count : Nat) :
    unansweredTimes candidates (count + 1) =
      unanswered candidates ++ unansweredTimes candidates count := by
  rw [unansweredTimes, List.replicate_succ, List.flatten_cons, unansweredTimes]

/-- Each of them is one question. -/
theorem questions_unansweredTimes (candidates : List String) (count : Nat) :
    questions (unansweredTimes candidates count) =
      List.replicate count (selectQuestion candidates) := by
  induction count with
  | zero => rfl
  | succ count ih =>
    rw [unansweredTimes_succ, unanswered, questions_append, ih, questions_cons_asked,
      questions_ofReport, List.replicate_succ]
    rfl

/-- Each of them is one warning. -/
theorem report_unansweredTimes (candidates : List String) (count : Nat) :
    report (unansweredTimes candidates count) = emptySelections count := by
  induction count with
  | zero => rfl
  | succ count ih =>
    rw [unansweredTimes_succ, unanswered, report_append, ih, report_cons_asked, report_ofReport,
      emptySelections_succ]

variable {candidates : List String}

/-- Asking for a selection goes through the answers up to the first one that selects something. -/
theorem select_eq (selections : List (List Nat)) :
    select candidates selections =
      ⟨match (selections.map (pick candidates)).find? (· ≠ []) with
        | some answer => .ok answer
        | none => .error .noSelectionLeft,
        unansweredTimes candidates ((selections.map (pick candidates)).takeWhile (· = [])).length ++
          [.asked (selectQuestion candidates)]⟩ := by
  induction selections with
  | nil => rfl
  | cons places later ih =>
    rw [select, List.map_cons, List.find?_cons, List.takeWhile_cons]
    dsimp only
    by_cases hempty : pick candidates places = []
    · -- a question and a warning, and then the same with the answers that are left
      rw [if_pos hempty, ih]
      simp only [hempty, ne_eq, not_true_eq_false, decide_false, decide_true, if_true,
        List.length_cons, unansweredTimes_succ]
      rfl
    · rw [if_neg hempty]
      simp only [hempty, ne_eq, not_false_eq_true, decide_false, decide_true,
        Bool.false_eq_true, if_false]
      rfl

/-- A conversation about candidates has what was reported before it shown, and then asks for a
    selection until there is one. -/
theorem ask_eq (operator : Operator) (hcandidates : candidates ≠ []) :
    ask operator candidates =
      ⟨operator.selected candidates,
        .reported .flush :: (unansweredTimes candidates (operator.emptyAnswers candidates) ++
          [.asked (selectQuestion candidates)])⟩ := by
  -- an absent operator gives no answer, so the question is asked just once
  cases operator with
  | absent =>
    rw [ask, question, if_neg hcandidates]
    rfl
  | script selections inputs =>
    rw [ask, question, if_neg hcandidates, select_eq]
    rfl

/-! ## Answers -/

/-- A selection has one candidate for each place, in order, as long as there are such places. -/
theorem map_some_pick {places : List Nat} (h : ∀ i ∈ places, i < candidates.length) :
    (pick candidates places).map some = places.map fun i => candidates[i]? := by
  induction places with
  | nil => rfl
  | cons i places ih =>
    -- a place below the length has a candidate, so none is passed over
    have hlt : i < candidates.length := h i (by simp)
    have hi : candidates[i]? = some candidates[i] := List.getElem?_eq_getElem hlt
    have hrest := ih fun j hj => h j (by simp [hj])
    rw [pick, List.filterMap_cons_some hi, List.map_cons, List.map_cons, hi]
    exact congrArg _ hrest

/-- A conversation in which a selection is asked for until there is one.  Its questions, its
    warnings and its result are in step with the answers. -/
structure AsksUntilSelected (operator : Operator) (candidates : List String) (asked : Asked) :
    Prop where
  result : asked.result = operator.selected candidates
  ne_nil : asked.result ≠ .ok []
  refused : (∀ answer ∈ operator.answers candidates, answer = []) →
    asked.result = .error operator.refusal ∧
      operator.emptyAnswers candidates = (operator.answers candidates).length
  events : asked.events = .reported .flush ::
    (unansweredTimes candidates (operator.emptyAnswers candidates) ++
      [.asked (selectQuestion candidates)])
  questions : questions asked.events =
    List.replicate (operator.emptyAnswers candidates + 1) (selectQuestion candidates)
  report : report asked.events = .flush :: emptySelections (operator.emptyAnswers candidates)
  answers : ∀ selections inputs, operator = .script selections inputs →
    (∀ places ∈ selections, ∀ i ∈ places, i < candidates.length) →
    (operator.answers candidates).map (·.map some) =
      selections.map fun places => places.map fun i => candidates[i]?

/-- With candidates, a conversation returns the first answer that selects something, in the order of
    the selection and with its repetitions.  For each answer before that it asks once and warns
    once, and it asks once more for the last one, or for the failure of the operator when no answer
    is left.  Without candidates it asks for a typed list, once. -/
theorem ask_until_selected (operator : Operator) (candidates : List String) :
    (candidates ≠ [] → AsksUntilSelected operator candidates (ask operator candidates)) ∧
      (candidates = [] → questions (ask operator candidates).events = [inputQuestion]) := by
  constructor
  · intro hcandidates
    rw [ask_eq operator hcandidates]
    refine ⟨rfl, fun hnone => ?_, fun hempty => ?_, rfl, ?_, ?_, ?_⟩
    · -- an answer that is found selects something
      have hselected : operator.selected candidates = .ok [] := hnone
      unfold Operator.selected at hselected
      split at hselected
      · rename_i answer hfound
        rw [Except.ok.inj hselected] at hfound
        exact absurd (List.find?_some hfound) (by simp)
      · exact nomatch hselected
    · -- all answers are empty, so none is found and each is warned about
      have hnone : (operator.answers candidates).find? (· ≠ []) = none := by
        rw [List.find?_eq_none]
        intro answer hanswer
        simp [hempty answer hanswer]
      have hall : (operator.answers candidates).takeWhile (· = []) =
          operator.answers candidates := by
        rw [List.takeWhile_eq_self_iff]
        intro answer hanswer
        simp [hempty answer hanswer]
      constructor
      · show operator.selected candidates = _
        rw [Operator.selected, hnone]
      · rw [Operator.emptyAnswers, hall]
    · -- one question for each empty answer, and one for the last
      rw [questions_cons_reported, questions_append, questions_unansweredTimes,
        List.replicate_succ']
      rfl
    · rw [report_cons_reported, report_append, report_unansweredTimes]
      exact congrArg _ (List.append_nil _)
    · rintro selections inputs rfl hplaces
      rw [Operator.answers, List.map_map]
      exact List.map_congr_left fun places hmem => map_some_pick (hplaces places hmem)
  · -- without candidates a line is asked for, whoever answers
    intro hcandidates
    cases operator with
    | absent =>
      rw [ask, question, if_pos hcandidates]
      rfl
    | script selections inputs =>
      rw [ask, question]
      dsimp only
      rw [if_pos hcandidates]
      cases inputs with
      | nil => rfl
      | cons line later => rfl

/-- The third answer selects three times from two candidates. -/
theorem ask_until_selected_third :
    let operator : Operator := .script [[], [], [1, 0, 1], [0]] []
    (ask operator ["a.ts", "b.ts"]).result = .ok ["b.ts", "a.ts", "b.ts"] ∧
      questions (ask operator ["a.ts", "b.ts"]).events =
        List.replicate 3 (selectQuestion ["a.ts", "b.ts"]) ∧
      report (ask operator ["a.ts", "b.ts"]).events =
        .flush :: emptySelection ++ emptySelection := by
  intro operator
  have hasks := (ask_until_selected operator ["a.ts", "b.ts"]).1 (List.cons_ne_nil _ _)
  exact ⟨hasks.result, hasks.questions, hasks.report⟩

end Prompt

end TypeLeak
