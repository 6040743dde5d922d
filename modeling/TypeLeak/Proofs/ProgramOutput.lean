import Mathlib.Data.List.Infix
import TypeLeak.CommandLine.Program

/-!
# What a run of the program prints

The program writes what its check reports through a buffer, and leaves in one of two ways: from its
main function, which empties the buffer, and at once, which does not.  On each way everything that
was written has reached the output, and what closes it and the exit code tell how the check ended.

## Key results

- `written_false`: without colour a report is its wording
- `closing_ends_with_flush`: whatever the result, what closes the report has all of it shown
- `checkRun_stdout`: so all of it is on the output
- `runWith_prints`: the output and the exit code for every command line
-/

namespace TypeLeak

namespace Report

/-- The texts of a report, one behind the other. -/
def wording : List Output → String
  | [] => ""
  | .text spans :: report => spans.foldr (fun s rest => s.text ++ rest) (wording report)
  | .flush :: report => wording report

/-- Without colour a report is its wording. -/
theorem written_false (report : List Output) : written false report = wording report := by
  induction report with
  | nil => rfl
  | cons output report ih =>
    rw [← List.singleton_append, written_append, ih]
    cases output with
    | flush => simp [wording]
    | text spans =>
      -- each span adds its own text, and what follows is the wording of the rest
      induction spans with
      | nil => simp [wording, written, Text.render]
      | cons s spans ihs =>
        have hspan : written false [.text (s :: spans)] = s.text ++ written false [.text spans] := by
          simp [written, Text.render, Text.chars_false]
        rw [hspan, String.append_assoc, ihs]
        rfl

/-- The line that a failed run ends with. -/
theorem wording_fatal (chain : List String) :
    wording (fatal chain) = "✗ " ++ ": ".intercalate chain ++ "\n" := by
  apply String.toList_inj.1
  simp [wording, fatal, failure, marked, line, Text.Span.plain, Text.Span.styled]

/-- The line that tells how long a run took. -/
theorem wording_finished (elapsed : String) (listed : Nat) :
    wording (finished elapsed listed ++ [.flush]) =
      "\n● Finished in " ++ elapsed ++ "ms on " ++ toString listed ++ " files.\n" := by
  apply String.toList_inj.1
  simp [wording, finished, line, Text.Span.plain, Text.Span.styled]

end Report

namespace CommandLine

open Text (Span Style)

/-- Whatever the result, what closes the report has all of it shown. -/
theorem closing_ends_with_flush (elapsed : String) (result : Except Failure Verdict) :
    ∃ front, (ending elapsed result).closing = front ++ [.flush] := by
  -- every ending closes with a flush, even where it prints nothing more
  cases result with
  | error failure => exact ⟨Report.failure [.plain failure.message], rfl⟩
  | ok verdict =>
    cases verdict with
    | noFiles => exact ⟨[], rfl⟩
    | typeErrors files => exact ⟨[], rfl⟩
    | checked flagged listed => exact ⟨Report.finished elapsed listed, rfl⟩

/-- The output is what the check reports and what closes it, however the program leaves. -/
theorem checkRun_stdout (w : World) (toolchain : Toolchain) (operator : Operator) (colour : Bool)
    (elapsed : String) (o : Options) :
    (checkRun w toolchain operator colour elapsed o).stdout =
      Report.written colour (Transcript.report (w.check toolchain operator o).events) ++
        Report.written colour (ending elapsed (w.check toolchain operator o).result).closing := by
  obtain ⟨front, hfront⟩ := closing_ends_with_flush elapsed (w.check toolchain operator o).result
  -- what the buffer held back is out by the last flush
  rw [checkRun, hfront, ← List.append_assoc, OutputBuffer.leave_puts_flush, Report.written_append,
    Report.written_append, Report.written_flush, String.append_empty]

/-- The line of a failure, span by span. -/
theorem written_fatal (colour : Bool) (failure : Failure) :
    Report.written colour (Report.fatal failure.chain) =
      Text.render colour
        [.styled Style.boldRed "✗", .plain " ", .plain failure.message, .plain "\n"] := by
  simp [Report.written, Report.fatal, Report.failure, Report.marked, Report.line, Failure.message]

/-- The closing line of a report, span by span. -/
theorem written_finished (colour : Bool) (elapsed : String) (listed : Nat) :
    Report.written colour (Report.finished elapsed listed ++ [.flush]) =
      Text.render colour
        [.plain "\n", .styled Style.brightBlue "●", .plain " Finished in ",
          .styled Style.cyan elapsed, .plain "ms on ", .styled Style.cyan (toString listed),
          .plain " files.", .plain "\n"] := by
  simp [Report.written, Report.finished, Report.line]

/-- **Nothing that is written is lost, and the exit code tells how the run ended.**  A mistake on the
command line prints nothing on the output and exits with 2; help and the version exit with 0.  Any
other run prints what its check reports and then, if it failed, one line with the whole chain of
messages, and exits with 1; the time it took, if the compiler listed files; and else nothing more.
Without colour these are the texts themselves. -/
theorem runWith_prints (operator : Operator) (w : World) (toolchain : Toolchain) (colour : Bool)
    (elapsed : String) (args : List String) :
    let run := runWith operator w toolchain colour elapsed args
    match parse args with
    | .error .help => run.exitCode = 0 ∧ run.stdout = helpText
    | .error .version => run.exitCode = 0 ∧ run.stdout = versionText
    | .error _ => run.exitCode = 2 ∧ run.stdout = ""
    | .ok o =>
      let check := w.check toolchain operator o
      let report := Transcript.report check.events
      let shown := Report.written colour report
      (colour = false → shown = Report.wording report) ∧
        match check.result with
        | .error failure =>
          run.exitCode = 1 ∧
            run.stdout = shown ++ Text.render colour
              [.styled Style.boldRed "✗", .plain " ", .plain (": ".intercalate failure.chain),
                .plain "\n"] ∧
            (colour = false → run.stdout =
              Report.wording report ++ ("✗ " ++ ": ".intercalate failure.chain ++ "\n"))
        | .ok (.checked _ listed) =>
          run.exitCode = 0 ∧
            run.stdout = shown ++ Text.render colour
              [.plain "\n", .styled Style.brightBlue "●", .plain " Finished in ",
                .styled Style.cyan elapsed, .plain "ms on ", .styled Style.cyan (toString listed),
                .plain " files.", .plain "\n"] ∧
            (colour = false → run.stdout = Report.wording report ++
              ("\n● Finished in " ++ elapsed ++ "ms on " ++ toString listed ++ " files.\n"))
        | .ok _ => run.exitCode = 0 ∧ run.stdout = shown := by
  unfold runWith
  cases parse args with
  | error stop => cases stop <;> exact ⟨rfl, rfl⟩
  | ok o =>
    have hcode : (checkRun w toolchain operator colour elapsed o).exitCode =
        (ending elapsed (w.check toolchain operator o).result).exitCode := rfl
    dsimp only
    -- from here on only the report and the result matter, not how the check came to them
    rw [checkRun_stdout, hcode]
    generalize Transcript.report (w.check toolchain operator o).events = report
    generalize (w.check toolchain operator o).result = result
    have hplain : colour = false → Report.written colour report = Report.wording report := by
      rintro rfl
      exact Report.written_false report
    refine ⟨hplain, ?_⟩
    cases result with
    | error failure =>
      refine ⟨rfl, congrArg _ (written_fatal colour failure), fun hcolour => ?_⟩
      rw [← hplain hcolour, hcolour, ending, Report.written_false (Report.fatal _),
        Report.wording_fatal]
    | ok verdict =>
      cases verdict with
      | checked flagged listed =>
        refine ⟨rfl, congrArg _ (written_finished colour elapsed listed), fun hcolour => ?_⟩
        rw [← hplain hcolour, hcolour, ending, Report.written_false (_ ++ _),
          Report.wording_finished]
      | noFiles | typeErrors files =>
        exact ⟨rfl, (congrArg _ (Report.written_flush colour)).trans String.append_empty⟩

/-- A project that uses a package to be developed, seen from its own directory. -/
def paddedProject : World :=
  .inside (.ofEntries [(["p"], .directory),
    (["p", "package.json"], .file (Text.Utf8.encode
      "\x7b\"devDependencies\": \x7b\"left-pad\": \"1\"\x7d\x7d") false),
    (["p", "node_modules"], .directory), (["p", "node_modules", "left-pad"], .directory),
    (["p", "node_modules", "left-pad", "package.json"], .file (Text.Utf8.encode "{}") false)]) ["p"]

/-- A compiler that loads a file of that package. -/
def paddedToolchain : Toolchain :=
  fun _ t => .ok ⟨Text.Utf8.encode "/p/node_modules/left-pad/index.d.ts\n", [], .code 0, t⟩

/-- A run that flags the package prints it and how long it took, and one in a directory without a
    manifest prints why it failed, behind a mark that is coloured if colour is on. -/
theorem runWith_prints_padded :
    (runWith .absent paddedProject paddedToolchain false "7" ["--files=a.ts"]).stdout =
        "Using provided files: a.ts\nConsider moving these devDependencies into\n" ++
          "dependencies or peerDependencies.\n" ++
          "Not doing so will likely result in bad exported types.\n[\"left-pad\"]\n\n" ++
          "● Finished in 7ms on 1 files.\n" ∧
      (runWith .absent paddedProject paddedToolchain false "7" ["--root", "/"]).stdout =
        "✗ Failed to read /package.json: No such file or directory (os error 2)\n" ∧
      (runWith .absent paddedProject paddedToolchain true "7" ["--root", "/"]).stdout =
        "\x1b[1;31m✗\x1b[0m Failed to read /package.json: No such file or directory (os error 2)\n" := by
  have hparse : parse ["--files=a.ts"] = .ok ⟨["a.ts"], none, "npx tsc"⟩ := by decide +kernel
  have hparse' : parse ["--root", "/"] = .ok ⟨[], some ⟨"/"⟩, "npx tsc"⟩ := by decide +kernel
  have hresult : (paddedProject.check paddedToolchain .absent ⟨["a.ts"], none, "npx tsc"⟩).result =
      .ok (.checked ["left-pad"] 1) := by decide +kernel
  have hresult' : (paddedProject.check paddedToolchain .absent ⟨[], some ⟨"/"⟩, "npx tsc"⟩).result =
      .error (.unreadable ⟨"/package.json"⟩ (.os .notFound)) := by decide +kernel
  -- the exit code and the text of each run come from the general statement
  have hflagged := runWith_prints .absent paddedProject paddedToolchain false "7" ["--files=a.ts"]
  have hfailed := fun colour =>
    runWith_prints .absent paddedProject paddedToolchain colour "7" ["--root", "/"]
  simp only [hparse, hresult, true_implies] at hflagged
  simp only [hparse', hresult'] at hfailed
  refine ⟨?_, ?_, ?_⟩
  · rw [hflagged.2.2.2]
    decide +kernel
  · rw [(hfailed false).2.2.2 rfl]
    decide +kernel
  · rw [(hfailed true).2.2.1]
    decide +kernel

end CommandLine

end TypeLeak
