import TypeLeak.CommandLine.Parser
import TypeLeak.Proofs.CompilerLaunch
import TypeLeak.Proofs.EntrySources

/-!
# Which empty entries are handed to the compiler

The files to trace come from one of four sources.  Three of them never give an empty path: the
sources of the entry points are files, the sources found in the project have names, and what the
operator types is taken apart into names, of which the empty ones are dropped.  The files provided
are taken as they are.

## Key results

- `empty_not_mem_entrySources`, `empty_not_mem_sources`, `empty_not_mem_names`: the three sources
- `empty_mem_filesToTrace_iff`: when an empty path is decided on
- `empty_mem_includes_iff`: when the compiler is told to include one
-/

namespace TypeLeak

/-- No name in a typed line is empty. -/
theorem Prompt.empty_not_mem_names (line : String) : "" ∉ Prompt.names line := by
  intro hmem
  have hne := (List.mem_filter.1 hmem).2
  simp at hne

namespace World

open Transcript

variable {w : World} {p : Project}

/-- The empty path leads nowhere. -/
theorem isFile_empty (w : World) : w.isFile ⟨.empty⟩ = false := by
  have hnone : w.resolve ⟨.empty⟩ = .error .notFound := rfl
  unfold isFile
  rw [hnone]

/-- The sources of entry points are files. -/
theorem isFile_of_mem_files_traceEntry {root : Path} {entry : String} {file : Path}
    (h : file ∈ (w.traceEntry root entry).files) : w.isFile file = true := by
  obtain ⟨_, _, -, -, -, hfile⟩ := of_mem_files_traceEntry h
  exact hfile

/-- No source of an entry point is shown as nothing. -/
theorem empty_not_mem_entrySources (w : World) (p : Project) : "" ∉ w.entrySources p := by
  intro hmem
  obtain ⟨entry, -, hfile⟩ := List.mem_flatMap.1 hmem
  obtain ⟨file, hfile, hshown⟩ := List.mem_map.1 hfile
  have hisFile := isFile_of_mem_files_traceEntry hfile
  -- only the empty path is shown as nothing
  have hempty : file = ⟨.empty⟩ := congrArg Path.mk (OsText.lossy_eq_empty_iff.1 hshown)
  rw [hempty, isFile_empty] at hisFile
  exact nomatch hisFile

/-- What is found in a directory has a name. -/
theorem empty_not_mem_sources (hw : w.tree.WellFormed) {root : Path} {dir : Location}
    {filter : SearchFilter} (hroot : w.resolve root = .ok (.present dir .directory)) :
    "" ∉ w.sources root filter := by
  cases hinput : root.isSame ⟨"-"⟩ with
  | true =>
    have hnone : w.findings root filter = [] := by
      unfold findings
      rw [hinput, if_pos rfl]
    unfold sources
    rw [hnone]
    exact List.not_mem_nil
  | false =>
    rw [mem_sources_iff_findings]
    cases hread : w.tree.isReadable dir with
    | false =>
      rw [findings_of_locked hroot hread hinput]
      simp
    | true =>
      -- the walk to a source takes at least one step, along names that are not shown as nothing
      rw [← mem_sources_iff_findings, mem_sources_iff_walked hroot hread hinput]
      rintro ⟨names, hwalked, hshown⟩
      have hleads := (walked_iff_leadsToSource hw hroot hread).1 hwalked
      rw [← OsText.lossy_ofSegments] at hshown
      exact hleads.ne_nil (OsText.eq_of_ofSegments_eq hleads.named (List.forall_mem_nil _)
        (OsText.lossy_eq_empty_iff.1 hshown.symm))

/-- An empty path is decided on only if it was provided. -/
theorem empty_mem_filesToTrace_iff (hw : w.tree.WellFormed) {dir : Location}
    (hroot : w.resolve p.root = .ok (.present dir .directory)) {operator : Operator}
    {provided files : List String} (h : w.filesToTrace operator p provided = .ok files) :
    "" ∈ files ↔ "" ∈ provided := by
  unfold filesToTrace at h
  -- past the files provided, each of the other three comes up with names only
  split at h
  · rw [Except.ok.inj h]
  rename_i hprovided
  rw [not_not.1 hprovided]
  refine iff_of_false (fun hmem => ?_) List.not_mem_nil
  split at h
  · rw [← Except.ok.inj h] at hmem
    exact empty_not_mem_entrySources w p hmem
  · rcases Prompt.of_ask h with ⟨-, -, line, -, -, rfl⟩ | ⟨-, -, hchosen⟩
    · exact Prompt.empty_not_mem_names line hmem
    · exact empty_not_mem_sources hw hroot (hchosen hmem)

/-- A launch of a check is one for its project and the files decided on. -/
theorem of_mem_launches {toolchain : Toolchain} {operator : Operator} {o : Options}
    (hw : w.tree.WellFormed) {invocation : Invocation} {t : FileTree}
    (h : (invocation, t) ∈ launches (w.check toolchain operator o).events) :
    ∃ p files, o.project w = .ok p ∧ w.filesToTrace operator p o.files = .ok files ∧
      w.LaunchedFor p files invocation t := by
  cases hproject : o.project w with
  | error failure =>
    rw [check_eq_of_no_project hproject] at h
    exact nomatch h
  | ok p =>
    -- a launch is one of the trace, and the trace launches once
    obtain ⟨-, hnone | ⟨files, hfiles, htrace⟩⟩ := events_check toolchain operator hproject
    · rw [hnone] at h
      exact nomatch h
    rw [htrace] at h
    rcases w.launches_trace toolchain p.root p.command files with hnone | hlaunched
    · rw [hnone] at h
      exact nomatch h
    · obtain ⟨ready, invocation', finished, hwrite, hlaunch, hone⟩ := hlaunched
      rw [hone, List.mem_singleton] at h
      cases h
      exact ⟨p, files, rfl, hfiles, (launchedFor_of_launch hw hwrite hlaunch).1⟩

/-- Whenever a check launches the compiler, the configuration there can be read, and it includes an
    empty path exactly if one was provided: neither the sources of the entry points nor those found
    in the project nor the names that the operator types have one among them. -/
theorem empty_mem_includes_iff (w : World) (toolchain : Toolchain) (operator : Operator)
    (o : Options) (hw : w.tree.WellFormed) (invocation : Invocation) (t : FileTree)
    (h : (invocation, t) ∈ launches (w.check toolchain operator o).events) :
    ∃ config, configRead t invocation.dir = some config ∧
      ("" ∈ config.includes ↔ "" ∈ o.files) := by
  obtain ⟨p, files, -, hfiles, hfor⟩ := of_mem_launches hw h
  obtain ⟨hne, hshort, hreach, hdir⟩ := directory_eq_ok_iff.1 hfor.dir
  have hroot : w.resolve p.root = .ok (.present invocation.dir .directory) :=
    resolve_eq_directory_iff.2 ⟨hne, hshort, hreach, hdir⟩
  exact ⟨_, hfor.reads, empty_mem_filesToTrace_iff hw hroot hfiles⟩

/-- With one file provided, the compiler is launched and told about no empty path. -/
theorem empty_mem_includes_near :
    ∃ invocation t config,
      (invocation, t) ∈ launches (nearProject.check killedToolchain .absent nearOptions).events ∧
        configRead t invocation.dir = some config ∧ "" ∉ config.includes := by
  have hw : nearProject.tree.WellFormed := by decide
  have hlaunched : (launches (nearProject.check killedToolchain .absent nearOptions).events).map
      (fun l => l.1.dir) = [(["p"] : Location)] := by decide +kernel
  obtain ⟨⟨invocation, t⟩, hmem, -⟩ := List.mem_map.1 (hlaunched ▸ List.mem_singleton_self _)
  obtain ⟨config, hread, hiff⟩ :=
    empty_mem_includes_iff nearProject killedToolchain .absent nearOptions hw invocation t hmem
  exact ⟨invocation, t, config, hmem, hread, fun hempty => absurd (hiff.1 hempty) (by decide)⟩

/-- The same project, with a comma after the file provided. -/
def commaOptions : Options := ⟨["a.ts", ""], some ⟨"../p/"⟩, "tsc"⟩

/-- What stands behind the comma on a command line is a file provided, and the compiler is told to
    include it. -/
theorem includes_empty_behind_comma :
    CommandLine.parse ["--root", "../p/", "--tsc", "tsc", "--files", "a.ts,"] = .ok commaOptions ∧
      ¬ ∀ invocation t config,
        (invocation, t) ∈ launches (nearProject.check killedToolchain .absent commaOptions).events →
          configRead t invocation.dir = some config → "" ∉ config.includes := by
  refine ⟨by decide +kernel, fun hnone => ?_⟩
  -- what the compiler reads is computed, empty path and all
  have hlaunched : (launches (nearProject.check killedToolchain .absent commaOptions).events).map
      (fun l => configRead l.2 l.1.dir) = [some ⟨"/p/tsconfig.json", ["a.ts", ""]⟩] := by
    decide +kernel
  obtain ⟨⟨invocation, t⟩, hmem, hread⟩ := List.mem_map.1 (hlaunched ▸ List.mem_singleton_self _)
  exact hnone invocation t _ hmem hread (by decide)

end World

end TypeLeak
