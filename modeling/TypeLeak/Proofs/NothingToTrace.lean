import TypeLeak.Proofs.CompilerLaunch
import TypeLeak.Proofs.FoundSources
import TypeLeak.Proofs.PathSpelling
import TypeLeak.Proofs.TypedNames

/-!
# When there is nothing to trace

A check ends without anything to trace in exactly one way: no files are provided, the entry points
have no sources, the project holds no source that the operator could select, and the operator types
a line with no name in it.  Then nothing was launched and nothing was changed.

## Key results

- `names_eq_nil_iff`: which lines have no name in them
- `ask_eq_nil_iff`: when a conversation comes to no file
- `check_eq_noFiles_iff`: when a check does
-/

namespace TypeLeak

namespace Prompt

open Text

/-- A line has no name in it if it has only commas and blanks. -/
theorem names_eq_nil_iff {line : String} :
    names line = [] ↔ ∀ c ∈ line.toList, c = ',' ∨ isBlank c = true := by
  -- no piece between commas is left when all of them are blank
  have hpieces : names line = [] ↔
      ∀ piece ∈ cut (· == ',') line.toList, ∀ c ∈ piece, isBlank c = true := by
    simp [names, splitAt, List.filter_eq_nil_iff, trim_eq_empty_iff, IsBlankText]
  rw [hpieces]
  constructor
  · intro hblank c hc
    by_cases hcomma : c = ','
    · exact .inl hcomma
    · obtain ⟨piece, hpiece, hmem⟩ :=
        (exists_mem_cut_iff (· == ',') (beq_eq_false_iff_ne.2 hcomma) line.toList).2 hc
      exact .inr (hblank piece hpiece c hmem)
  · intro hline piece hpiece c hc
    have hsep := not_sep_of_mem_cut hpiece c hc
    have hmem := (exists_mem_cut_iff (· == ',') hsep line.toList).1 ⟨piece, hpiece, hc⟩
    exact (hline c hmem).resolve_left (beq_eq_false_iff_ne.1 hsep)

/-- A conversation comes to no file only if there is no candidate and no name in the line typed. -/
theorem ask_eq_nil_iff {operator : Operator} {candidates : List String} :
    (ask operator candidates).result = .ok [] ↔
      candidates = [] ∧ ∃ selections line later,
        operator = .script selections (line :: later) ∧ names line = [] := by
  constructor
  · intro hnone
    rcases of_ask hnone with ⟨hcandidates, selections, line, later, hoperator, hnames⟩ | ⟨-, hne, -⟩
    · exact ⟨hcandidates, selections, line, later, hoperator, hnames.symm⟩
    · exact absurd rfl hne
  · rintro ⟨rfl, selections, line, later, rfl, hnames⟩
    exact congrArg Except.ok hnames

end Prompt

namespace World

open Transcript

variable {w : World} {toolchain : Toolchain} {operator : Operator} {o : Options} {p : Project}

/-- The entry points have no sources exactly if none of their traces has files. -/
theorem entrySources_eq_nil_iff :
    w.entrySources p = [] ↔
      ∀ entry ∈ p.manifest.entryPoints, (w.traceEntry p.root entry).files = [] := by
  simp [entrySources]

/-- No file is decided on only if none is provided, none found and none chosen. -/
theorem filesToTrace_eq_nil_iff {provided : List String} :
    w.filesToTrace operator p provided = .ok [] ↔
      provided = [] ∧ w.entrySources p = [] ∧
        (Prompt.ask operator (w.sources p.root .standard)).result = .ok [] := by
  unfold filesToTrace
  -- the first source of files that is not empty decides
  split
  · rename_i hprovided
    exact iff_of_false (fun h => hprovided (Except.ok.inj h)) fun h => hprovided h.1
  rename_i hprovided
  split
  · rename_i hsources
    exact iff_of_false (fun h => hsources (Except.ok.inj h)) fun h => hsources h.2.1
  · rename_i hsources
    rw [not_not.1 hprovided, not_not.1 hsources]
    simp

/-- Tracing files does not come to nothing to trace. -/
theorem checkFiles_ne_noFiles (files : List String) :
    (w.checkFiles toolchain p files).result ≠ .ok .noFiles := by
  unfold checkFiles
  dsimp only
  split
  · exact nofun
  · exact nofun
  · exact nofun

/-- A check that found nothing to trace has a project and decided on no file. -/
theorem of_check_eq_noFiles (h : (w.check toolchain operator o).result = .ok .noFiles) :
    ∃ p, o.project w = .ok p ∧ w.filesToTrace operator p o.files = .ok [] := by
  cases hproject : o.project w with
  | error failure =>
    rw [check_eq_of_no_project hproject] at h
    exact nomatch h
  | ok p =>
    refine ⟨p, rfl, ?_⟩
    cases hchosen : w.filesToTrace operator p o.files with
    | error failure =>
      rw [check_eq_of_undecided hproject hchosen] at h
      exact nomatch h
    | ok files =>
      -- a check that decides on files traces them, which ends differently
      by_cases hfiles : files = []
      · rw [hfiles]
      · rw [check_eq_of_files hproject hchosen hfiles] at h
        exact absurd h (checkFiles_ne_noFiles files)

/-- A check ends with nothing to trace exactly if its project is found, no file is provided, no entry
    point has sources, no source lies in the project, and the line that the operator types has only
    commas and blanks.  Then it has launched nothing and changed nothing.  With a source in the
    project it fails or traces files. -/
theorem check_eq_noFiles_iff (w : World) (toolchain : Toolchain) (operator : Operator)
    (o : Options) :
    ((w.check toolchain operator o).result = .ok .noFiles ↔
        ∃ p, o.project w = .ok p ∧ o.files = [] ∧
          (∀ entry ∈ p.manifest.entryPoints, (w.traceEntry p.root entry).files = []) ∧
          w.sources p.root .standard = [] ∧
          ∃ selections line later, operator = .script selections (line :: later) ∧
            ∀ c ∈ line.toList, c = ',' ∨ Text.isBlank c = true) ∧
      ((w.check toolchain operator o).result = .ok .noFiles →
        launches (w.check toolchain operator o).events = [] ∧
          (w.check toolchain operator o).world = w) ∧
      (∀ p, o.project w = .ok p → w.sources p.root .standard ≠ [] →
        (∃ failure, (w.check toolchain operator o).result = .error failure) ∨
          ∃ files, files ≠ [] ∧ w.filesToTrace operator p o.files = .ok files ∧
            (w.check toolchain operator o).result = (w.checkFiles toolchain p files).result) := by
  refine ⟨⟨fun hnone => ?_, fun hright => ?_⟩, fun hnone => ?_, fun p hproject hsources => ?_⟩
  · obtain ⟨p, hproject, hchosen⟩ := of_check_eq_noFiles hnone
    obtain ⟨hprovided, hentries, hasked⟩ := filesToTrace_eq_nil_iff.1 hchosen
    obtain ⟨hcandidates, selections, line, later, hoperator, hnames⟩ :=
      Prompt.ask_eq_nil_iff.1 hasked
    exact ⟨p, hproject, hprovided, entrySources_eq_nil_iff.1 hentries, hcandidates, selections,
      line, later, hoperator, Prompt.names_eq_nil_iff.1 hnames⟩
  · obtain ⟨p, hproject, hprovided, hentries, hcandidates, selections, line, later, hoperator,
      hline⟩ := hright
    have hasked := Prompt.ask_eq_nil_iff.2
      ⟨hcandidates, selections, line, later, hoperator, Prompt.names_eq_nil_iff.2 hline⟩
    have hchosen := filesToTrace_eq_nil_iff.2
      ⟨hprovided, entrySources_eq_nil_iff.2 hentries, hasked⟩
    rw [check_eq_of_nothing hproject hchosen]
  · obtain ⟨p, hproject, hchosen⟩ := of_check_eq_noFiles hnone
    rw [check_eq_of_nothing hproject hchosen, launches_append, launches_chooseFiles,
      launches_ofReport]
    exact ⟨rfl, rfl⟩
  · cases hchosen : w.filesToTrace operator p o.files with
    | error failure =>
      rw [check_eq_of_undecided hproject hchosen]
      exact .inl ⟨failure, rfl⟩
    | ok files =>
      -- a selection is never empty, nor are files provided or found
      have hfiles : files ≠ [] := by
        rintro rfl
        exact hsources (Prompt.ask_eq_nil_iff.1 (filesToTrace_eq_nil_iff.1 hchosen).2.2).1
      rw [check_eq_of_files hproject hchosen hfiles]
      exact .inr ⟨files, hfiles, rfl, rfl⟩

/-- The project near the current directory, with no file provided. -/
def askingOptions : Options := ⟨[], some ⟨"../p/"⟩, "tsc"⟩

/-- Where there is only a manifest and a line of commas and blanks is typed, a check ends with nothing
    to trace, and has launched nothing. -/
theorem check_eq_noFiles_near :
    (nearProject.check killedToolchain (.script [] [" ,\u3000,"]) askingOptions).result =
        .ok .noFiles ∧
      launches (nearProject.check killedToolchain (.script [] [" ,\u3000,"]) askingOptions).events =
        [] := by
  obtain ⟨hiff, hnothing, -⟩ := check_eq_noFiles_iff nearProject killedToolchain
    (.script [] [" ,\u3000,"]) askingOptions
  have hroot : nearProject.resolve ⟨"/p"⟩ = .ok (.present ["p"] .directory) := by decide +kernel
  have hsources : nearProject.sources ⟨"/p"⟩ .standard = [] := by
    unfold sources
    rw [findings_of_directory hroot rfl (by decide), findingsFrom_eq]
    decide +kernel
  have hproject : askingOptions.project nearProject =
      .ok ⟨⟨"/p"⟩, ⟨none, none, none, none, none⟩, ⟨"tsc", []⟩⟩ := by decide +kernel
  have hblank : " ,\u3000,".toList.all (fun c => c == ',' || Text.isBlank c) = true := by decide
  have hline : ∀ c ∈ " ,\u3000,".toList, c = ',' ∨ Text.isBlank c = true := by
    intro c hc
    simpa using List.all_eq_true.1 hblank c hc
  -- the manifest has no entry points at all
  have hresult := hiff.2
    ⟨_, hproject, rfl, fun _ hentry => (List.not_mem_nil hentry).elim, hsources, [], " ,\u3000,", [],
      rfl, hline⟩
  exact ⟨hresult, (hnothing hresult).1⟩

end World

end TypeLeak
