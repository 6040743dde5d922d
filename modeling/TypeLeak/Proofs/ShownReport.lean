import TypeLeak.Proofs.FileChoice

/-!
# What is shown when a question is asked

What is reported need not be seen at once: it is held back until the report asks to be shown.  A
conversation has everything shown that was reported before it.  After an empty selection it warns
and puts its question again, without having the warning shown, so a question is asked with as many
warnings held back as there were questions before it.

## Key results

- `heldBack_append`: what is held back after two reports
- `report_before_question`: a repeated question comes after one warning for each question before it
- `heldBack_at_question`: these warnings, and nothing else, are held back when it is asked
-/

namespace TypeLeak

namespace Report

/-- What is held back after a report, if `waiting` was held back before it. -/
def heldBack (waiting : List Output) : List Output → List Output
  | [] => waiting
  | .text spans :: later => heldBack (waiting ++ [.text spans]) later
  | .flush :: later => heldBack [] later

/-- What the first of two reports holds back is waiting when the second begins. -/
theorem heldBack_append (waiting first second : List Output) :
    heldBack waiting (first ++ second) = heldBack (heldBack waiting first) second := by
  -- a flush forgets what is waiting, so what waits is carried along
  induction first generalizing waiting with
  | nil => rfl
  | cons output first ih =>
    cases output with
    | text spans => exact ih _
    | flush => exact ih _

/-- A report that does not ask to be shown is held back as a whole. -/
theorem heldBack_of_not_mem {report : List Output} (h : .flush ∉ report) (waiting : List Output) :
    heldBack waiting report = waiting ++ report := by
  -- what is held back grows by each text, in order
  induction report generalizing waiting with
  | nil => exact (List.append_nil waiting).symm
  | cons output report ih =>
    cases output with
    | text spans =>
      rw [heldBack, ih fun hmem => h (List.mem_cons_of_mem _ hmem), List.append_assoc]
      rfl
    | flush => exact absurd (List.mem_cons_self ..) h

end Report

namespace Transcript

/-- What has been reported and is not shown yet. -/
def heldBack (events : List Event) : List Output := Report.heldBack [] (report events)

@[simp] theorem report_cons_asked (question : Question) (events : List Event) :
    report (.asked question :: events) = report events := rfl

@[simp] theorem report_cons_reported (output : Output) (events : List Event) :
    report (.reported output :: events) = output :: report events := rfl

end Transcript

namespace Prompt

open Transcript

/-- As many warnings about empty selections. -/
def emptySelections (count : Nat) : List Output := (List.replicate count emptySelection).flatten

/-- One warning more comes before the others. -/
theorem emptySelections_succ (count : Nat) :
    emptySelections (count + 1) = emptySelection ++ emptySelections count := by
  rw [emptySelections, List.replicate_succ, List.flatten_cons, emptySelections]

/-- No warning is held back exactly if none was given. -/
theorem emptySelections_eq_nil_iff {count : Nat} : emptySelections count = [] ↔ count = 0 := by
  cases count with
  | zero => exact iff_of_true rfl rfl
  | succ count =>
    rw [emptySelections_succ]
    exact iff_of_false (List.cons_ne_nil _ _) (Nat.succ_ne_zero count)

/-- The warnings do not ask to be shown. -/
theorem flush_not_mem_emptySelections (count : Nat) : .flush ∉ emptySelections count := by
  induction count with
  | zero => exact List.not_mem_nil
  | succ count ih =>
    rw [emptySelections_succ, List.mem_append]
    exact not_or.2 ⟨by decide, ih⟩

variable {candidates : List String} {before after : List Event} {question : Question}

/-- A question about candidates is asked after one warning for each time it was asked before. -/
theorem report_before_select {selections : List (List Nat)}
    (h : (select candidates selections).events = before ++ .asked question :: after) :
    report before = emptySelections (questions before).length := by
  induction selections generalizing before with
  | nil =>
    cases before with
    | nil => rfl
    | cons event before => simp [select] at h
  | cons places later ih =>
    unfold select at h
    dsimp only at h
    split at h
    · -- the question, a warning, and the conversation that goes on from there
      cases before with
      | nil => rfl
      | cons event before =>
        obtain ⟨rfl, hrest⟩ := List.cons.inj h
        cases before with
        | nil => exact nomatch (List.cons.inj hrest).1
        | cons event before =>
          obtain ⟨rfl, hlater⟩ := List.cons.inj hrest
          simp only [report_cons_asked, report_cons_reported, questions_cons_asked,
            questions_cons_reported, List.length_cons, emptySelections_succ, ih hlater]
          rfl
    · cases before with
      | nil => rfl
      | cons event before => simp at h

/-- A conversation begins by having shown what was reported before it.  Each question in it is asked
    after one warning for each question before. -/
theorem report_before_question {operator : Operator}
    (h : (ask operator candidates).events = before ++ .asked question :: after) :
    report before = .flush :: emptySelections (questions before).length := by
  cases before with
  | nil => exact nomatch (List.cons.inj h).1
  | cons event before =>
    obtain ⟨rfl, hanswer⟩ := List.cons.inj h
    have hbefore : report before = emptySelections (questions before).length := by
      -- only a question about candidates is ever asked again
      have hsingle : ∀ asked : Question, [Event.asked asked] = before ++ .asked question :: after →
          report before = emptySelections (questions before).length := by
        intro asked heq
        cases before with
        | nil => rfl
        | cons event before => simp at heq
      cases operator with
      | absent => exact hsingle _ hanswer
      | script selections inputs =>
        unfold Prompt.question at hanswer
        dsimp only at hanswer
        split at hanswer
        · cases inputs with
          | nil => exact hsingle _ hanswer
          | cons line later => exact hsingle _ hanswer
        · exact report_before_select hanswer
    rw [report_cons_reported, questions_cons_reported, hbefore]

/-- Whatever was reported before a conversation, each of its questions is asked with exactly the
    warnings about the empty selections so far held back: with nothing held back if it is the first
    one, and only then. -/
theorem heldBack_at_question (operator : Operator) (candidates : List String)
    (earlier before after : List Event) (question : Question)
    (h : (ask operator candidates).events = before ++ .asked question :: after) :
    heldBack (earlier ++ before) = emptySelections (questions before).length ∧
      (heldBack (earlier ++ before) = [] ↔ questions before = []) := by
  -- the conversation's own flush drops what was waiting before it
  have hheld : heldBack (earlier ++ before) = emptySelections (questions before).length := by
    unfold heldBack
    rw [report_append, report_before_question h, Report.heldBack_append]
    exact Report.heldBack_of_not_mem (flush_not_mem_emptySelections _) []
  refine ⟨hheld, ?_⟩
  rw [hheld, emptySelections_eq_nil_iff, List.length_eq_zero_iff]

/-- A selection is asked for, and what comes back is empty. -/
def emptyAnswer : List Event := .asked (selectQuestion ["a.ts"]) :: ofReport emptySelection

/-- With a line that waits to be shown, a selection is asked for three times.  All is shown the first
    time, and two warnings are held back the third time. -/
theorem heldBack_at_question_repeated :
    heldBack (ofReport (Report.info "No main/module found in package.json.") ++
        [.reported .flush]) = [] ∧
      heldBack (ofReport (Report.info "No main/module found in package.json.") ++
        (.reported .flush :: emptyAnswer ++ emptyAnswer)) = emptySelection ++ emptySelection := by
  constructor
  · exact (heldBack_at_question (.script [[], [], [0]] []) ["a.ts"] _ [.reported .flush] _ _ rfl).2.2 rfl
  · exact (heldBack_at_question (.script [[], [], [0]] []) ["a.ts"] _
      (.reported .flush :: emptyAnswer ++ emptyAnswer) [] _ rfl).1

/-- The second question is asked while the warning before it is held back. -/
theorem not_shown_asked_again :
    ¬ ∀ before question after,
      (ask (.script [[], [0]] []) ["a.ts"]).events = before ++ .asked question :: after →
        heldBack before = [] := by
  intro hshown
  -- the second question comes after the first answer and its warning
  have hnone := hshown (.reported .flush :: emptyAnswer) _ [] rfl
  exact nomatch hnone

end Prompt

end TypeLeak
