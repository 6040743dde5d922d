import TypeLeak.Proofs.CanonicalPath
import TypeLeak.Proofs.FileChoice
import TypeLeak.Proofs.JsonText
import TypeLeak.Proofs.TraceCleanup
import TypeLeak.Proofs.Utf8Text

/-!
# What the compiler is launched with

A check launches the compiler at most once, in the project's directory, and at that moment the
configuration file there tells it to load exactly the files that were decided on.  The file is
written along the project's path and read from the project's directory, so both look-ups are
followed to the directory that the path reaches, and from there through whatever links the file's
name leads along.

## Key results

- `resolve_of_writeText`: what is written next to a path is found in its directory
- `launches_trace`: a trace launches the compiler only after its configuration was written
- `root_of_locate`, `root_of_project`: where the project's root comes from
- `entrySources_eq`: the sources of the entry points, one entry point after the other
- `check_launches`: what the compiler is launched with, and when the operator is asked
-/

namespace TypeLeak

namespace World

variable {w : World} {p : Path} {name : OsText}

/-! ## Writing a file and reading it -/

/-- A path names a directory to run in exactly if it may be looked up and reaches one. -/
theorem directory_eq_ok_iff {dir : Location} :
    w.directory p = .ok dir ↔
      p.text ≠ .empty ∧ p.isTooLong = false ∧ (∃ links, w.Reaches p links dir) ∧
        w.tree.isDirectory dir = true := by
  rw [← resolve_eq_directory_iff]
  unfold directory
  -- only a directory that is present makes a directory to run in
  cases w.resolve p with
  | error cause => simp
  | ok found =>
    cases found with
    | present loc e => cases e <;> simp
    | vacant loc => simp
    | removed => simp

/-- A file is written where the name leads to from the directory that the path reaches. -/
theorem ends_of_writeText (hname : Path.IsName name) {text : String} {ready : World}
    (h : w.writeText (p.join ⟨name⟩) text = .ok ready) :
    (Path.mk name).holdsNul = false ∧
      ∃ links dir dir' last executable, w.Reaches p links dir ∧
      ready.tree.Ends links dir [.enter name] dir' last ∧
      ready.tree.get? (dir' ++ [last]) = some (.file (Text.Utf8.encode text) executable) := by
  obtain ⟨loc, executable, hplace, rfl⟩ := of_writeText h
  obtain ⟨found, hresolve, hloc⟩ := of_writesTo hplace
  obtain ⟨-, hnul, links, dir, hreach, hwalk⟩ := (resolveFor_join hname).1 hresolve
  -- the file stands where the walk ends, and there was no directory and no link before
  obtain ⟨dir', last, hends, rfl, hfile⟩ := (FileTree.finds_of_walk hwalk).ends hloc
  refine ⟨hnul, links, dir, dir', last, executable, hreach, ?_, ?_⟩
  · exact hends.mono (FileTree.waysIn_insert _ hfile)
  · rw [FileTree.get?_insert]
    simp

/-- What is written next to a path is what its name leads to in its directory. -/
theorem resolve_of_writeText (hname : Path.IsName name) (hsize : name.size ≤ maxName)
    {text : String} {ready : World} {dir : Location}
    (hwrite : w.writeText (p.join ⟨name⟩) text = .ok ready) (hdir : ready.directory p = .ok dir) :
    (∃ links, w.Reaches p links dir) ∧
      ∃ loc executable, (World.inside ready.tree dir).resolve ⟨name⟩ =
        .ok (.present loc (.file (Text.Utf8.encode text) executable)) := by
  obtain ⟨-, -, ⟨links', hreach'⟩, hisdir⟩ := directory_eq_ok_iff.1 hdir
  obtain ⟨hnul, links, dir₀, dir', last, executable, hreach, hends, hget⟩ :=
    ends_of_writeText hname hwrite
  -- the path reached the same directory before the file was written
  obtain ⟨hcwd, hways⟩ := keeps_of_writeText hwrite
  obtain ⟨-, rfl⟩ := hreach.unique (hreach'.mono hcwd.symm hways)
  refine ⟨⟨links, hreach⟩, ?_⟩
  -- and fewer links were left then than a walk from there may follow
  have hlinks : links ≤ FileTree.maxLinks := by
    obtain ⟨-, -, rest, -, hleads⟩ := hreach
    exact hleads.links_le
  have hwalk := FileTree.walk_of_ends (hends.more hlinks) hget
  have hresolve := resolve_inside hname hsize hnul hisdir
  exact ⟨_, _, hresolve.trans hwalk⟩

/-! ## The launch of a trace -/

open Transcript

/-- Removing the configuration file is at most worth a warning. -/
theorem events_removeConfig (w : World) (config : Path) :
    (w.removeConfig config).2 = [] ∨ (w.removeConfig config).2 = [.warned] := by
  unfold removeConfig
  split
  · split
    · exact .inl rfl
    · exact .inr rfl
  · exact .inl rfl

private theorem events_endTrace (config : Path) (events : List Event)
    (result : Except Failure CompilerAnswer) :
    launches (w.endTrace config events result).events = launches events ∧
      questions (w.endTrace config events result).events = questions events := by
  -- the end of a trace adds the removal's warning, which is neither launch nor question
  have hwarnings : launches (w.removeConfig config).2 = [] ∧
      questions (w.removeConfig config).2 = [] := by
    rcases w.events_removeConfig config with hnone | hone
    · rw [hnone]
      exact ⟨rfl, rfl⟩
    · rw [hone]
      exact ⟨rfl, rfl⟩
  unfold endTrace
  dsimp only
  rw [launches_append, questions_append, hwarnings.1, hwarnings.2, List.append_nil, List.append_nil]
  exact ⟨rfl, rfl⟩

/-- A trace launches the compiler at most once, after its configuration was written. -/
theorem launches_trace (w : World) (toolchain : Toolchain) (root : Path)
    (command : CompilerCommand) (files : List String) :
    launches (w.trace toolchain root command files).events = [] ∨
      ∃ ready invocation finished,
        w.writeText (root.join ⟨Layout.checkConfigFile⟩)
            (CompilerConfig.json ⟨(root.join ⟨Layout.projectConfigFile⟩).lossy, files⟩) = .ok ready ∧
          ready.launch toolchain command root = .ok (invocation, finished) ∧
          launches (w.trace toolchain root command files).events = [(invocation, ready.tree)] := by
  unfold trace CompilerConfig.forFiles
  by_cases hfiles : files = []
  · -- without files there is no configuration to write
    rw [if_pos hfiles]
    exact .inl rfl
  rw [if_neg hfiles]
  dsimp only
  -- each stage either fails, and nothing is launched, or hands its world on
  cases hwrite : w.writeText (root.join ⟨Layout.checkConfigFile⟩)
      (CompilerConfig.json ⟨(root.join ⟨Layout.projectConfigFile⟩).lossy, files⟩) with
  | error cause => exact .inl (events_endTrace _ _ _).1
  | ok ready =>
    dsimp only
    cases hlaunch : ready.launch toolchain command root with
    | error cause => exact .inl (events_endTrace _ _ _).1
    | ok run =>
      obtain ⟨invocation, finished⟩ := run
      exact .inr ⟨ready, invocation, finished, rfl, hlaunch, (events_endTrace _ _ _).1⟩

/-- A trace asks nothing. -/
theorem questions_trace (w : World) (toolchain : Toolchain) (root : Path)
    (command : CompilerCommand) (files : List String) :
    questions (w.trace toolchain root command files).events = [] := by
  -- every outcome but the one without files ends in the removal
  unfold trace
  split
  · rfl
  · dsimp only
    split
    · exact (events_endTrace _ _ _).2
    · split
      · exact (events_endTrace _ _ _).2
      · exact (events_endTrace _ _ _).2

private theorem events_checkFiles (toolchain : Toolchain) (p : Project) (files : List String) :
    launches (w.checkFiles toolchain p files).events =
        launches (w.trace toolchain p.root p.command files).events ∧
      questions (w.checkFiles toolchain p files).events = [] := by
  -- the report is printed after the trace, whatever the trace found
  have hasks := w.questions_trace toolchain p.root p.command files
  unfold checkFiles
  dsimp only
  split
  · exact ⟨rfl, hasks⟩
  · rw [launches_append, launches_ofReport, List.append_nil, questions_append, hasks,
      questions_ofReport]
    exact ⟨rfl, rfl⟩
  · rw [launches_append, launches_ofReport, List.append_nil, questions_append, hasks,
      questions_ofReport]
    exact ⟨rfl, rfl⟩

/-- What a check does is to decide on files and to trace them. -/
theorem events_check (toolchain : Toolchain) (operator : Operator) {o : Options} {p : Project}
    (h : o.project w = .ok p) :
    questions (w.check toolchain operator o).events =
        questions (w.chooseFiles operator p o.files).events ∧
      (launches (w.check toolchain operator o).events = [] ∨
        ∃ files, w.filesToTrace operator p o.files = .ok files ∧
          launches (w.check toolchain operator o).events =
            launches (w.trace toolchain p.root p.command files).events) := by
  have hnone := w.launches_chooseFiles operator p o.files
  -- without files decided on, or with none of them, nothing is launched
  cases hchosen : w.filesToTrace operator p o.files with
  | error failure =>
    rw [check_eq_of_undecided h hchosen]
    exact ⟨rfl, .inl hnone⟩
  | ok files =>
    by_cases hfiles : files = []
    · rw [hfiles] at hchosen
      rw [check_eq_of_nothing h hchosen, launches_append, questions_append, hnone,
        launches_ofReport, questions_ofReport, List.append_nil]
      exact ⟨rfl, .inl rfl⟩
    · obtain ⟨hlaunches, hquestions⟩ := w.events_checkFiles toolchain p files
      rw [check_eq_of_files h hchosen hfiles, launches_append, questions_append, hnone, hlaunches,
        hquestions, List.append_nil, List.nil_append]
      exact ⟨rfl, .inr ⟨files, rfl, rfl⟩⟩

/-! ## The project -/

/-- A project is found from its root on: the root, the manifest there, and the command. -/
theorem of_project {o : Options} {p : Project} (h : o.project w = .ok p) :
    ∃ ready, o.locate w = .ok ready ∧ ready.knownRoot = .ok p.root ∧
      w.manifest p.root = .ok p.manifest ∧ ready.command = .ok p.command := by
  unfold Options.project at h
  -- every stage has to succeed for the next one to be reached
  obtain ⟨ready, hready, h⟩ := bind_eq_ok.1 h
  obtain ⟨root, hroot, h⟩ := bind_eq_ok.1 h
  obtain ⟨manifest, hmanifest, h⟩ := bind_eq_ok.1 h
  obtain ⟨command, hcommand, h⟩ := bind_eq_ok.1 h
  cases h
  exact ⟨ready, hready, hroot, hmanifest, hcommand⟩

/-- The root is the canonical path of the one given, or that one as it was given if it has none, or
    else the current directory. -/
theorem root_of_locate {o ready : Options} {root : Path} (h : o.locate w = .ok ready)
    (hroot : ready.knownRoot = .ok root) :
    (∀ r, o.root = some r → root = (w.canonical r).toOption.getD r) ∧
      (o.root = none → w.currentDirectory = .ok root) := by
  unfold Options.locate at h
  -- the current directory is asked for only if no root was given
  cases hgiven : o.root with
  | some r =>
    rw [hgiven] at h
    cases h
    refine ⟨fun r' hr => ?_, nofun⟩
    cases hr
    exact (Except.ok.inj hroot).symm
  | none =>
    rw [hgiven] at h
    cases hcurrent : w.currentDirectory with
    | error cause => simp [hcurrent] at h
    | ok dir =>
      rw [hcurrent] at h
      cases h
      exact ⟨nofun, fun _ => congrArg Except.ok (Except.ok.inj hroot)⟩

/-- So is the root of a project, and its command is that of the line given. -/
theorem root_of_project {o : Options} {p : Project} (h : o.project w = .ok p) :
    (∀ r, o.root = some r → p.root = (w.canonical r).toOption.getD r) ∧
      (o.root = none → w.currentDirectory = .ok p.root) ∧
      CompilerCommand.ofLine o.compiler = .ok p.command := by
  obtain ⟨ready, hready, hknown, -, hcommand⟩ := of_project h
  obtain ⟨hgiven, hcurrent⟩ := root_of_locate hready hknown
  -- looking for the root leaves the compiler's line alone
  have hline : ready.compiler = o.compiler := by
    unfold Options.locate at hready
    split at hready
    · cases hready
      rfl
    · split at hready
      · cases hready
        rfl
      · exact nomatch hready
  unfold Options.command at hcommand
  rw [hline] at hcommand
  exact ⟨hgiven, hcurrent, hcommand⟩

/-- A root that reaches a directory is the canonical path of that directory, if there is one: the
    one given leads to it, or it is the current directory. -/
theorem root_eq_path (hw : w.tree.WellFormed) {o ready : Options} {root : Path}
    (h : o.locate w = .ok ready) (hknown : ready.knownRoot = .ok root)
    {links : Nat} {dir : Location} (hne : root.text ≠ .empty) (hreach : w.Reaches root links dir)
    (hstart : ∀ r, o.root = some r → w.WithinReach r) :
    root = dir.path ∧ (∀ r, o.root = some r → w.canonical r = .ok root) := by
  obtain ⟨hgiven, hcurrent⟩ := root_of_locate h hknown
  have hdir : w.tree.isDirectory dir = true := by
    obtain ⟨-, hbegin, rest, -, hleads⟩ := hreach
    exact hw.isDirectory_of_leads hleads hbegin
  cases hroot : o.root with
  | none =>
    -- the current directory is spelled by its own path
    have hpath := hcurrent hroot
    unfold currentDirectory at hpath
    split at hpath
    · rename_i hcwd
      simp only [Bool.and_eq_true, decide_eq_true_eq] at hcwd
      have hcwdPath : root = w.cwd.dir.path := (Except.ok.inj hpath).symm
      rw [hcwdPath] at hreach ⊢
      rw [eq_of_reaches_path hw (FileTree.isDirectory_iff.1 hcwd.2) (fun _ => nofun) hreach]
      exact ⟨rfl, fun r hr => nomatch hr⟩
    · exact nomatch hpath
  | some r =>
    have hfound := hgiven r hroot
    cases hcanonical : w.canonical r with
    | ok q =>
      rw [hcanonical] at hfound
      have hq : root = q := hfound
      rw [hq] at hreach ⊢
      refine ⟨eq_of_reaches_canonical hw hcanonical hreach, fun r' hr => ?_⟩
      cases hr
      exact hcanonical
    | error cause =>
      -- a path that reaches a directory has a canonical one
      exfalso
      rw [hcanonical] at hfound
      have hr : root = r := hfound
      rw [hr] at hreach hne
      have hok := canonical_eq_ok_iff.2
        ⟨dir, .directory, lookUp_of_reaches hreach hne hdir, hstart r hroot, rfl⟩
      rw [hcanonical] at hok
      exact nomatch hok

/-! ## The launch of a check -/

/-- The configuration that stands in a directory of a tree, where a compiler launched there reads
    it. -/
def configRead (t : FileTree) (dir : Location) : Option CompilerConfig :=
  match (World.inside t dir).resolve ⟨"tsconfig-check.json"⟩ with
  | .ok (.present _ (.file bytes _)) =>
    (Text.Utf8.decode? bytes).bind fun text =>
      (Shape.parse CompilerConfig.decode "tsconfig-check.json" text).toOption
  | _ => none

/-- A launch for a project and the files to trace: the project's compiler runs in the project's
    directory, is told to use the configuration there, and reads from it that it extends the
    project's own and includes exactly these files. -/
structure LaunchedFor (w : World) (p : Project) (files : List String) (invocation : Invocation)
    (t : FileTree) : Prop where
  program : invocation.program = p.command.program
  args : invocation.args =
    p.command.leadingArgs ++ ["--listFiles", "--noEmit", "--project", "tsconfig-check.json"]
  dir : w.directory p.root = .ok invocation.dir
  reads : configRead t invocation.dir = some ⟨(p.root.join ⟨"tsconfig.json"⟩).lossy, files⟩

/-- The launch of a trace is one for its project and files. -/
theorem launchedFor_of_launch (hw : w.tree.WellFormed) {toolchain : Toolchain} {p : Project}
    {files : List String} {ready : World} {invocation : Invocation} {finished : Finished}
    (hwrite : w.writeText (p.root.join ⟨Layout.checkConfigFile⟩)
      (CompilerConfig.json ⟨(p.root.join ⟨Layout.projectConfigFile⟩).lossy, files⟩) = .ok ready)
    (hlaunch : ready.launch toolchain p.command p.root = .ok (invocation, finished)) :
    w.LaunchedFor p files invocation ready.tree ∧ p.root.text ≠ .empty ∧
      ∃ links, w.Reaches p.root links invocation.dir := by
  obtain ⟨dir, hdir, rfl, -⟩ := of_launch hlaunch
  have hsize : (OsText.ofString Layout.checkConfigFile).size ≤ maxName := by decide
  obtain ⟨⟨links, hreach⟩, loc, executable, hfound⟩ :=
    resolve_of_writeText isName_checkConfigFile hsize hwrite hdir
  obtain ⟨hne, hshort, -, -⟩ := directory_eq_ok_iff.1 hdir
  refine ⟨⟨rfl, rfl, ?_, ?_⟩, hne, links, hreach⟩
  · -- the project's directory was there before the configuration was written
    have ⟨_, hbegin, rest, _, hleads⟩ := hreach
    exact directory_eq_ok_iff.2
      ⟨hne, hshort, ⟨links, hreach⟩, hw.isDirectory_of_leads hleads hbegin⟩
  · have hfound' : (World.inside ready.tree dir).resolve ⟨"tsconfig-check.json"⟩ = .ok _ := hfound
    unfold configRead
    rw [hfound']
    dsimp only
    rw [Text.Utf8.decode?_encode, Option.bind_some, CompilerConfig.parse_json]
    rfl

/-- The sources of an entry point, if the manifest has it. -/
def sourcesOf (w : World) (p : Project) (entry : Option String) : List String :=
  entry.toList.flatMap fun entry => (w.traceEntry p.root entry).files.map Path.lossy

/-- The entry points are the main one, and then that of the module if it is another one. -/
theorem entrySources_eq (w : World) (p : Project) :
    w.entrySources p = w.sourcesOf p p.manifest.mainEntry ++
      if p.manifest.moduleEntry = p.manifest.mainEntry then []
      else w.sourcesOf p p.manifest.moduleEntry := by
  unfold entrySources sourcesOf Manifest.entryPoints
  cases p.manifest.mainEntry with
  | none => cases p.manifest.moduleEntry <;> simp
  | some main =>
    cases p.manifest.moduleEntry with
    | none => simp
    | some entry => by_cases heq : main = entry <;> simp [heq, eq_comm]

/-- A check launches the compiler at most once, for its project and the files decided on, and asks
    exactly if neither the options nor the entry points have files.  The entry points are the main one
    and then that of the module, if it is another one.  The project's root is the canonical path of
    the compiler's directory, unless the root given is not within reach: then it is left as it was
    given. -/
theorem check_launches (w : World) (toolchain : Toolchain) (operator : Operator) (o : Options)
    (hw : w.tree.WellFormed) :
    (launches (w.check toolchain operator o).events).length ≤ 1 ∧
      (∀ invocation t, (invocation, t) ∈ launches (w.check toolchain operator o).events →
        ∃ p files, o.project w = .ok p ∧ CompilerCommand.ofLine o.compiler = .ok p.command ∧
          w.filesToTrace operator p o.files = .ok files ∧ w.LaunchedFor p files invocation t ∧
          ((∀ r, o.root = some r → w.WithinReach r) →
            p.root = invocation.dir.path ∧ ∀ r, o.root = some r → w.canonical r = .ok p.root) ∧
          ∀ r, o.root = some r → ¬ w.WithinReach r → p.root = r) ∧
      (questions (w.check toolchain operator o).events ≠ [] ↔
        ∃ p, o.project w = .ok p ∧ o.files = [] ∧ w.entrySources p = []) ∧
      ∀ p, o.project w = .ok p →
        w.entrySources p = w.sourcesOf p p.manifest.mainEntry ++
          if p.manifest.moduleEntry = p.manifest.mainEntry then []
          else w.sourcesOf p p.manifest.moduleEntry := by
  cases hproject : o.project w with
  | error failure =>
    have hevents : (w.check toolchain operator o).events = [] := by
      unfold check
      rw [hproject]
    rw [hevents]
    exact ⟨Nat.zero_le _, nofun, iff_of_false (fun h => h rfl) (by simp), nofun⟩
  | ok p =>
    obtain ⟨hquestions, hlaunches⟩ := events_check toolchain operator hproject
    -- the launches are none, or the one of the trace of the files decided on
    have hone : launches (w.check toolchain operator o).events = [] ∨
        ∃ files invocation t, w.filesToTrace operator p o.files = .ok files ∧
          launches (w.check toolchain operator o).events = [(invocation, t)] ∧
          w.LaunchedFor p files invocation t ∧ p.root.text ≠ .empty ∧
          ∃ links, w.Reaches p.root links invocation.dir := by
      rcases hlaunches with hnone | ⟨files, hfiles, htrace⟩
      · exact .inl hnone
      rcases w.launches_trace toolchain p.root p.command files with hnone | hlaunched
      · exact .inl (htrace.trans hnone)
      · obtain ⟨ready, invocation, finished, hwrite, hlaunch, hlaunched⟩ := hlaunched
        exact .inr ⟨files, invocation, ready.tree, hfiles, htrace.trans hlaunched,
          launchedFor_of_launch hw hwrite hlaunch⟩
    refine ⟨?_, fun invocation t hmem => ?_, ?_, fun p _ => w.entrySources_eq p⟩
    · rcases hone with hnone | ⟨_, _, _, -, hsome, -⟩
      · rw [hnone]
        exact Nat.zero_le _
      · rw [hsome]
        exact Nat.le_refl _
    · rcases hone with hnone | ⟨files, invocation', t', hfiles, hsome, hlaunched, hne, links, hreach⟩
      · rw [hnone] at hmem
        exact nomatch hmem
      · rw [hsome, List.mem_singleton] at hmem
        cases hmem
        obtain ⟨hgiven, -, hcommand⟩ := root_of_project hproject
        obtain ⟨ready, hready, hknown, -, -⟩ := of_project hproject
        refine ⟨p, files, rfl, hcommand, hfiles, hlaunched,
          root_eq_path hw hready hknown hne hreach, fun r hr hfar => ?_⟩
        rw [hgiven r hr]
        cases hcanonical : w.canonical r with
        | error cause => rfl
        | ok q =>
          obtain ⟨-, -, -, hnear, -⟩ := canonical_eq_ok_iff.1 hcanonical
          exact absurd hnear hfar
    -- a trace asks nothing, so the questions are those of the decision
    · rw [hquestions, questions_chooseFiles_ne_nil_iff]
      constructor
      · intro hleft
        obtain ⟨hprovided, hsources⟩ := hleft
        exact ⟨p, rfl, hprovided, hsources⟩
      · intro hright
        obtain ⟨p', hp, hprovided, hsources⟩ := hright
        cases hp
        exact ⟨hprovided, hsources⟩

/-- A project that is checked from its own directory. -/
def nearProject : World :=
  ⟨.ofEntries [(["p"], .directory), (["p", "package.json"], .file (Text.Utf8.encode "{}") false)],
    .inside ["p"]⟩

/-- Its root is given from there, and a file is provided. -/
def nearOptions : Options := ⟨["a.ts"], some ⟨"../p/"⟩, "tsc"⟩

/-- The project with two entry points, and a map beside each. -/
def bundledProject : World :=
  .inside (.ofEntries [(["p"], .directory), (["p", "a.ts"], .file [] false),
    (["p", "b.ts"], .file [] false), (["p", "i.js"], .file [] false), (["p", "m.js"], .file [] false),
    (["p", "i.js.map"], .file (Text.Utf8.encode "\x7b\"sources\": [\"a.ts\"]\x7d") false),
    (["p", "m.js.map"], .file (Text.Utf8.encode "\x7b\"sources\": [\"b.ts\", \"a.ts\"]\x7d") false),
    (["p", "package.json"], .file (Text.Utf8.encode
      "\x7b\"module\": \"m.js\", \"main\": \"i.js\"\x7d") false)]) ["p"]

/-- Its root is given from there, and no files are provided. -/
def bundledOptions : Options := ⟨[], some ⟨"../p/"⟩, "npx tsc"⟩

/-- The compiler is launched once, in the project's directory, and is told about the project's own
    configuration by its canonical path and about the sources of both entry points, and nobody is
    asked. -/
theorem check_launches_bundled :
    bundledProject.tree.WellFormed ∧ bundledProject.WithinReach ⟨"../p/"⟩ ∧
      (launches (bundledProject.check killedToolchain .absent bundledOptions).events).length = 1 ∧
      (∀ invocation t, (invocation, t) ∈
          launches (bundledProject.check killedToolchain .absent bundledOptions).events →
        invocation.dir.path = ⟨"/p"⟩ ∧
          invocation.args = ["tsc", "--listFiles", "--noEmit", "--project", "tsconfig-check.json"] ∧
          configRead t invocation.dir = some ⟨"/p/tsconfig.json", ["/p/a.ts", "/p/b.ts", "/p/a.ts"]⟩) ∧
      questions (bundledProject.check killedToolchain .absent bundledOptions).events = [] := by
  have hw : bundledProject.tree.WellFormed := by decide
  have hreach : bundledProject.WithinReach ⟨"../p/"⟩ := by decide +kernel
  obtain ⟨-, hlaunched, hasked, hentries⟩ :=
    check_launches bundledProject killedToolchain .absent bundledOptions hw
  -- the project that is found, and the sources of its entry points
  have hproject : bundledOptions.project bundledProject =
      .ok ⟨⟨"/p"⟩, ⟨some "i.js", some "m.js", none, none, none⟩, ⟨"npx", ["tsc"]⟩⟩ := by
    decide +kernel
  have hsources := (hentries _ hproject).trans
    (by decide +kernel : _ = ["/p/a.ts", "/p/b.ts", "/p/a.ts"])
  refine ⟨hw, hreach, by decide +kernel, fun invocation t hmem => ?_, ?_⟩
  · obtain ⟨p, files, hfound, -, hfiles, hfor, hnear, -⟩ := hlaunched invocation t hmem
    cases hproject.symm.trans hfound
    obtain ⟨hroot, -⟩ := hnear fun r hr => Option.some.inj hr ▸ hreach
    have hchosen : files = ["/p/a.ts", "/p/b.ts", "/p/a.ts"] := by
      unfold filesToTrace at hfiles
      rw [if_neg (by decide), hsources, if_pos (by decide)] at hfiles
      exact (Except.ok.inj hfiles).symm
    refine ⟨hroot.symm, hfor.args, ?_⟩
    rw [hfor.reads, hchosen]
    decide
  · by_contra hne
    obtain ⟨p, hfound, -, hnone⟩ := hasked.1 hne
    cases hproject.symm.trans hfound
    exact absurd (hsources.symm.trans hnone) (by decide)

/-- The same project, checked from a directory in it that has been removed. -/
def lostProject : World := { nearProject with cwd := ⟨["p"], 1⟩ }

/-- Its root is the directory above. -/
def lostOptions : Options := ⟨["a.ts"], some ⟨".."⟩, "tsc"⟩

/-- There the compiler is told about the project's own configuration by the path given, not by the
    canonical one. -/
theorem check_launches_lost :
    ¬ ∀ invocation t,
      (invocation, t) ∈ launches (lostProject.check killedToolchain .absent lostOptions).events →
        ∃ files, configRead t invocation.dir =
          some ⟨(invocation.dir.path.join ⟨"tsconfig.json"⟩).lossy, files⟩ := by
  intro hcanonical
  -- the directory is reached through the removed one, so the path has no canonical form
  have hlaunched : (launches (lostProject.check killedToolchain .absent lostOptions).events).map
      (fun l => (l.1.dir, configRead l.2 l.1.dir)) =
        [((["p"] : Location), some ⟨"../tsconfig.json", ["a.ts"]⟩)] := by
    decide +kernel
  obtain ⟨⟨invocation, t⟩, hmem, hl⟩ := List.mem_map.1 (hlaunched ▸ List.mem_singleton_self _)
  obtain ⟨files, hread⟩ := hcanonical invocation t hmem
  simp only [Prod.mk.injEq] at hl
  -- what the compiler reads is not what the canonical path would have given
  rw [hl.1] at hread hl
  rw [hl.2] at hread
  have hextends : "../tsconfig.json" = (Path.join (Location.path ["p"]) ⟨"tsconfig.json"⟩).lossy :=
    congrArg CompilerConfig.extendsPath (Option.some.inj hread)
  exact absurd hextends (by decide)

end World

end TypeLeak
