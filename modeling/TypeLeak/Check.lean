import TypeLeak.Package.Flagged
import TypeLeak.Prompt
import TypeLeak.SourceSearch
import TypeLeak.EntryTrace
import TypeLeak.Trace

/-! # The check of a project

A check finds the project and reads its manifest, decides which files to trace, has the compiler
list everything that these files load, and flags the packages among them that the manifest
declares only as development dependencies.

The files to trace are those provided; else the sources of the manifest's entry points; else those
that the operator chooses.
-/

namespace TypeLeak

/-- What a check is asked to do. -/
structure Options where
  files : List String
  root : Option Path
  compiler : String
  deriving Repr, DecidableEq

/-- How a check ended that reached an answer. -/
inductive Verdict where
  /-- there was nothing to trace -/
  | noFiles
  /-- the compiler found type errors in the files traced -/
  | typeErrors (files : List String)
  /-- which packages are flagged, and how many files the compiler loaded -/
  | checked (flagged : List String) (listed : Nat)
  deriving Repr, DecidableEq

/-- The end of a check, the world it leaves behind and what it did. -/
structure Run where
  result : Except Failure Verdict
  world : World
  events : List Event

/-- What has to be known before anything is traced. -/
structure Project where
  root : Path
  manifest : Manifest
  command : CompilerCommand
  deriving Repr, DecidableEq

namespace Options

/-- The root as it was given, or found before. -/
def knownRoot (o : Options) : Except Failure Path :=
  match o.root with
  | some root => .ok root
  | none => .error .notInitialized

/-- The options with their root found: the canonical path of the one given if it leads somewhere,
    or the current directory. -/
def locate (o : Options) (w : World) : Except Failure Options :=
  match o.root with
  | some root => .ok { o with root := some ((w.canonical root).toOption.getD root) }
  | none =>
    match w.currentDirectory with
    | .ok dir => .ok { o with root := some dir }
    | .error cause => .error (.noCurrentDirectory cause)

/-- The compiler's command. -/
def command (o : Options) : Except Failure CompilerCommand := CompilerCommand.ofLine o.compiler

/-- Find the project, its manifest and the compiler's command, in this order. -/
def project (o : Options) (w : World) : Except Failure Project := do
  let ready ← o.locate w
  let root ← ready.knownRoot
  let manifest ← w.manifest root
  let command ← ready.command
  .ok ⟨root, manifest, command⟩

end Options

namespace World

/-- Ask the operator, who can choose among the sources found in the project. -/
def askOperator (w : World) (operator : Operator) (root : Path) : Asked :=
  let findings := w.findings root .standard
  let answer := Prompt.ask operator (findings.filterMap Finding.source?)
  -- each broken entry is one warning, before anything is asked
  ⟨answer.result, (findings.filter Finding.isBroken).map (fun _ => .warned) ++ answer.events⟩

/-- The sources of each entry point. -/
def traceEntries (w : World) (p : Project) : List (String × EntryTrace) :=
  p.manifest.entryPoints.map fun entry => (entry, w.traceEntry p.root entry)

/-- All files that traces have found. -/
def tracedFiles (traces : List (String × EntryTrace)) : List String :=
  traces.flatMap fun t => t.2.files.map Path.lossy

/-- Decide which files to trace. -/
def chooseFiles (w : World) (operator : Operator) (p : Project) (provided : List String) : Asked :=
  if provided ≠ [] then
    ⟨.ok provided, Transcript.ofReport
      (Report.info ("Using provided files: " ++ ", ".intercalate provided))⟩
  -- without entry points there is nothing to trace, and the operator is asked at once
  else if p.manifest.entryPoints = [] then
    let answer := w.askOperator operator p.root
    ⟨answer.result,
      Transcript.ofReport (Report.info "No main/module found in package.json.") ++ answer.events⟩
  else
    let traces := w.traceEntries p
    let opening :=
      Report.info ("Found entry points: " ++ ", ".intercalate p.manifest.entryPoints) ++
        traces.flatMap fun t => Report.entryTrace t.1 t.2
    -- the operator is also asked if no entry point has a source
    if tracedFiles traces = [] then
      let answer := w.askOperator operator p.root
      ⟨answer.result,
        Transcript.ofReport (opening ++ Report.noEntrySources) ++ answer.events⟩
    else ⟨.ok (tracedFiles traces), Transcript.ofReport opening⟩

/-- Trace files of a project and flag its packages. -/
def checkFiles (w : World) (toolchain : Toolchain) (p : Project) (files : List String) : Run :=
  let traced := w.trace toolchain p.root p.command files
  match traced.result with
  | .error failure => ⟨.error failure, traced.world, traced.events⟩
  -- type errors are a result of the check, not its failure
  | .ok (.typeErrors output) =>
    ⟨.ok (.typeErrors files), traced.world,
      traced.events ++ Transcript.ofReport (Report.typeErrors files output)⟩
  | .ok (.listed listed) =>
    -- the listing is looked at in the file system as the compiler has left it
    let flagged := traced.world.flagged p.manifest listed
    ⟨.ok (.checked flagged listed.length), traced.world,
      traced.events ++ Transcript.ofReport (Report.advice flagged)⟩

/-- Check a project. -/
def check (w : World) (toolchain : Toolchain) (operator : Operator) (o : Options) : Run :=
  match o.project w with
  | .error failure => ⟨.error failure, w, []⟩
  | .ok p =>
    let chosen := w.chooseFiles operator p o.files
    match chosen.result with
    | .error failure => ⟨.error failure, w, chosen.events⟩
    | .ok [] => ⟨.ok .noFiles, w, chosen.events ++ Transcript.ofReport Report.noFiles⟩
    | .ok (file :: files) =>
      let run := w.checkFiles toolchain p (file :: files)
      ⟨run.result, run.world, chosen.events ++ run.events⟩

end World

end TypeLeak
