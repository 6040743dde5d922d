import TypeLeak.Failure
import TypeLeak.Transcript

/-! # Tracing files with the compiler

The compiler is asked which files it loads for the files to trace.  It is told so by a
configuration file in the project's directory, which is removed again however the trace ends.

* `listing_eq`       only line feeds divide a listing, and its last line is like the others
* `listing_append`   the listing of two outputs on lines of their own is that of both in turn
-/

namespace TypeLeak

/-- What the compiler answered. -/
inductive CompilerAnswer where
  /-- the files it loaded -/
  | listed (files : List String)
  /-- what it printed about type errors -/
  | typeErrors (output : String)
  deriving Repr, DecidableEq

/-- The paths that a compiler lists: one on each line that is not blank. -/
def listing (output : String) : List String :=
  ((Text.lines output).map Text.trim).filter (· ≠ "")

/-- Only line feeds divide a listing: what else belongs to the end of a line is trimmed away, and a
    last line without anything on it is blank. -/
theorem listing_eq (output : String) :
    listing output = ((Text.splitAt '\n' output).map Text.trim).filter (· ≠ "") := by
  have htrim : ∀ line, Text.trim (String.ofList line) = String.ofList (Text.trimChars line) := by
    intro line
    rw [Text.trim, String.toList_ofList]
  have hpieces := Text.cut_ne_nil (· == '\n') output.toList
  unfold listing Text.lines Text.lineChars Text.splitAt
  generalize Text.cut (· == '\n') output.toList = pieces at hpieces ⊢
  -- the last piece is a line of its own only if something stands on it
  obtain ⟨before, last, rfl⟩ : ∃ before last, pieces = before ++ [last] :=
    ⟨_, _, (List.dropLast_concat_getLast hpieces).symm⟩
  by_cases hlast : last = []
  · subst hlast
    have hempty : Text.trimChars [] = [] := rfl
    simp [htrim, hempty, Text.trimChars_withoutReturn, Function.comp_def]
  · simp [htrim, hlast, Text.trimChars_withoutReturn, Function.comp_def]

/-- The listing of two outputs on lines of their own is that of both in turn. -/
theorem listing_append (a b : String) : listing (a ++ "\n" ++ b) = listing a ++ listing b := by
  simp [listing_eq, Text.splitAt, Text.cut_append]

namespace Finished

/-- The standard output, without the blanks around it. -/
def trimmedStdout (f : Finished) : String := Text.trim (Text.Utf8.decodeLossy f.stdout)

/-- What a compiler that failed has to say for itself. -/
def complaint (f : Finished) : String :=
  let text := Text.trim (Text.Utf8.decodeLossy f.stderr)
  -- some compilers complain on their standard output
  if text = "" then f.trimmedStdout else text

/-- What a compiler launched by `command` answered. -/
def outcome (f : Finished) (command : String) : Except Failure CompilerAnswer :=
  if f.status = .code 0 then .ok (.listed (listing (Text.Utf8.decodeLossy f.stdout)))
  else if f.status = .code Layout.typeErrorsExit then .ok (.typeErrors f.trimmedStdout)
  else .error (.compilerFailed command f.status f.complaint)

end Finished

/-- The end of a trace, the world it leaves behind and what it did. -/
structure Traced where
  result : Except Failure CompilerAnswer
  world : World
  events : List Event

namespace World

/-- The world without the configuration file, if that is there.  Failing to remove it is only
    worth a warning. -/
def removeConfig (w : World) (config : Path) : World × List Event :=
  if w.exists? config then
    match w.unlink config with
    | .ok w => (w, [])
    | .error _ => (w, [.warned])
  else (w, [])

/-- The end of a trace after its configuration file has been removed. -/
def endTrace (w : World) (config : Path) (events : List Event)
    (result : Except Failure CompilerAnswer) : Traced :=
  -- the result is settled, whatever becomes of the file
  let (left, warnings) := w.removeConfig config
  ⟨result, left, events ++ warnings⟩

/-- Launch a compiler for a trace in a directory. -/
def launch (w : World) (toolchain : Toolchain) (command : CompilerCommand) (dir : Path) :
    Except OsError (Invocation × Finished) :=
  -- a NUL is noticed before anything is launched
  if (command.program :: command.traceArgs).any (·.toList.contains '\x00') then
    .error .nulInArgument
  else
    match w.directory dir with
    | .error cause => .error cause
    | .ok loc =>
      let invocation : Invocation := ⟨command.program, command.traceArgs, loc⟩
      match toolchain invocation w.tree with
      | .error cause => .error cause
      | .ok finished => .ok (invocation, finished)

/-- Trace files of the project at `root`. -/
def trace (w : World) (toolchain : Toolchain) (root : Path) (command : CompilerCommand)
    (files : List String) : Traced :=
  match CompilerConfig.forFiles (root.join ⟨Layout.projectConfigFile⟩).lossy files with
  -- without files there is no configuration, and none to be removed
  | .error failure => ⟨.error failure, w, []⟩
  | .ok content =>
    let config := root.join ⟨Layout.checkConfigFile⟩
    match w.writeText config content.json with
    -- from here on a configuration may be there, so every end removes it
    | .error cause => w.endTrace config [] (.error (.unwritable config cause))
    | .ok ready =>
      match ready.launch toolchain command root with
      | .error cause => ready.endTrace config [] (.error (.notLaunched command.display cause))
      | .ok (invocation, finished) =>
        { ready with tree := finished.tree }.endTrace config [.launched invocation ready.tree]
          (finished.outcome command.display)

end World

end TypeLeak
