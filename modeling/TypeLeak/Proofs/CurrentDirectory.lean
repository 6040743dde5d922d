import TypeLeak.Proofs.CleanPath
import TypeLeak.Proofs.CompilerLaunch
import TypeLeak.Proofs.PackageListing
import TypeLeak.Proofs.SearchSteps

/-!
# Checks from different current directories

A project that is given by an absolute root is checked in the same way from every current directory.
Each path that a check makes is joined to the root, or to a path that the compiler listed, so it is
absolute and leads to the same place from everywhere.

## Key results

- `resolveFor_of_isAbsolute`, `seat_of_isAbsolute`: an absolute path leads to one place
- `findingsFrom_seenFrom`, `traceEntry_seenFrom`, `flagged_seenFrom`: what is found along one
- `trace_seenFrom`: a trace does the same and leaves the same behind
- `check_seenFrom`: so does a check
-/

namespace TypeLeak

namespace FileTree

variable {t : FileTree} {p : Path} (h : p.isAbsolute = true) (s s' : Standpoint)
include h

/-! ## Absolute paths -/

/-- A walk along an absolute path begins at the top, wherever one stands. -/
theorem lookUp_of_isAbsolute (purpose : Purpose) : t.lookUp purpose s p = t.lookUp purpose s' p := by
  unfold lookUp
  rw [h]
  rfl

/-- So an absolute path leads to the same place from everywhere. -/
theorem resolveFor_of_isAbsolute (purpose : Purpose) :
    t.resolveFor purpose s p = t.resolveFor purpose s' p := by
  unfold resolveFor
  rw [lookUp_of_isAbsolute h s s']

/-- So does the directory that holds its last name. -/
theorem seat_of_isAbsolute : t.seat s p = t.seat s' p := by
  unfold seat resolve
  rw [h, resolveFor_of_isAbsolute h s s']
  rfl

end FileTree

namespace World

/-- The same file tree seen from another current directory. -/
def seenFrom (w : World) (s : Standpoint) : World := { w with cwd := s }

/-- Standing elsewhere changes no files. -/
@[simp] theorem tree_seenFrom (w : World) (s : Standpoint) : (w.seenFrom s).tree = w.tree := rfl

section Paths

variable {w : World} {p : Path} (h : p.isAbsolute = true) (s : Standpoint)
include h

/-- An absolute path is resolved alike from everywhere. -/
theorem resolve_seenFrom : (w.seenFrom s).resolve p = w.resolve p :=
  FileTree.resolveFor_of_isAbsolute h s w.cwd .reading

/-- Whether there is something at an absolute path is the same from everywhere. -/
theorem exists?_seenFrom : (w.seenFrom s).exists? p = w.exists? p := by
  unfold exists?
  rw [resolve_seenFrom h]

/-- So is whether there is a file. -/
theorem isFile_seenFrom : (w.seenFrom s).isFile p = w.isFile p := by
  unfold isFile
  rw [resolve_seenFrom h]

/-- So is the directory at it. -/
theorem directory_seenFrom : (w.seenFrom s).directory p = w.directory p := by
  unfold directory
  rw [resolve_seenFrom h]

/-- So is the text at it. -/
theorem readText_seenFrom : (w.seenFrom s).readText p = w.readText p := by
  unfold readText readBytes
  rw [resolve_seenFrom h, tree_seenFrom]

/-- So is its canonical form, and what hinders it. -/
theorem canonical_seenFrom : (w.seenFrom s).canonical p = w.canonical p := by
  -- the probes of the path begin at the top as well
  have hprobed : (w.seenFrom s).probed p = w.probed p := by
    unfold probed
    rw [h]
    rfl
  unfold canonical
  rw [tree_seenFrom, FileTree.lookUp_of_isAbsolute h (w.seenFrom s).cwd w.cwd, hprobed, h]
  rfl

/-- Writing to an absolute path does the same to the files. -/
theorem writeText_seenFrom (text : String) :
    (w.seenFrom s).writeText p text = (w.writeText p text).map fun ready => ready.seenFrom s := by
  unfold writeText
  rw [tree_seenFrom, FileTree.resolveFor_of_isAbsolute h (w.seenFrom s).cwd w.cwd]
  split <;> rfl

/-- Removing an absolute path does the same to the files. -/
theorem unlink_seenFrom :
    (w.seenFrom s).unlink p = (w.unlink p).map fun left => left.seenFrom s := by
  unfold unlink
  rw [tree_seenFrom, FileTree.seat_of_isAbsolute h (w.seenFrom s).cwd w.cwd]
  -- what stands at the seat decides, and it is looked up in the same tree
  split
  · rfl
  · split <;> rfl

/-- So does the removal of the configuration, which is tried only if it is there. -/
theorem removeConfig_seenFrom :
    (w.seenFrom s).removeConfig p = ((w.removeConfig p).1.seenFrom s, (w.removeConfig p).2) := by
  unfold removeConfig
  rw [exists?_seenFrom h, unlink_seenFrom h]
  split
  · cases w.unlink p with
    | ok left => rfl
    | error cause => rfl
  · rfl

end Paths

/-! ## What a check looks at -/

section Root

variable {w : World} {root : Path} (hroot : root.isAbsolute = true) (s : Standpoint)

/-- A search walks on from its root, wherever the current directory is. -/
theorem findingsFrom_seenFrom (filter : SearchFilter) {state : SearchState}
    (h : state.path.isAbsolute = true) (names : List OsText) :
    (w.seenFrom s).findingsFrom filter state names = w.findingsFrom filter state names := by
  -- along the directories entered: each of them adds a name to a path that is absolute
  induction state using (wellFounded_follows w filter).induction generalizing names with
  | _ state ih =>
    have hby : (w.seenFrom s).findingsBy filter state names = w.findingsBy filter state names := by
      funext name
      -- the path of each name is absolute, and so are those in the directories entered
      have hpath := Path.isAbsolute_join h ⟨name⟩
      have hchoice : (w.seenFrom s).choice filter state name = w.choice filter state name := by
        unfold choice
        rw [tree_seenFrom, exists?_seenFrom hpath, isFile_seenFrom hpath, resolve_seenFrom hpath]
      rw [findingsBy_eq_choice, findingsBy_eq_choice, hchoice]
      cases hdone : w.choice filter state name with
      | leave => rfl
      | report found => rfl
      | enter sub => exact ih _ ⟨name, sub, enters_of_choice hdone, rfl⟩ hpath _
    rw [findingsFrom_eq, findingsFrom_eq, tree_seenFrom, hby]

include hroot

/-- A search under an absolute root finds the same. -/
theorem findings_seenFrom (filter : SearchFilter) :
    (w.seenFrom s).findings root filter = w.findings root filter := by
  unfold findings
  rw [resolve_seenFrom hroot]
  split
  · rfl
  · split
    · -- only a directory is walked through; of the other kinds the root itself decides
      rename_i dir _
      have hstart : (SearchState.mk [dir] dir root).path.isAbsolute = true := hroot
      have hbelow := findingsFrom_seenFrom (w := w) s filter hstart []
      unfold findingsFrom at hbelow
      rw [tree_seenFrom, hbelow]
    · rfl
    · rfl
    · rfl

/-- The manifest under an absolute root is the same. -/
theorem manifest_seenFrom : (w.seenFrom s).manifest root = w.manifest root := by
  unfold manifest
  dsimp only
  rw [readText_seenFrom (Path.isAbsolute_join hroot _)]

/-- The sources of a source map that are there are the same. -/
theorem existingSources_seenFrom (sources : List String) :
    (w.seenFrom s).existingSources root sources = w.existingSources root sources := by
  unfold existingSources
  refine List.filter_congr fun source hsource => ?_
  obtain ⟨text, -, rfl⟩ := List.mem_map.1 hsource
  exact isFile_seenFrom (Path.isAbsolute_clean (Path.isAbsolute_join hroot _)) s

/-- Tracing an entry point to its sources comes to the same. -/
theorem traceEntry_seenFrom (entry : String) :
    (w.seenFrom s).traceEntry root entry = w.traceEntry root entry := by
  -- the three paths of an entry: the file, its source map and the directory of both
  have hfile : (root.join ⟨entry⟩).clean.isAbsolute = true :=
    Path.isAbsolute_clean (Path.isAbsolute_join hroot _)
  have hmap : (SourceMap.pathOf (root.join ⟨entry⟩).clean).isAbsolute = true :=
    Path.isAbsolute_append hfile _
  have hdir : ((root.join ⟨entry⟩).clean.parent.getD root).isAbsolute = true := by
    cases hparent : (root.join ⟨entry⟩).clean.parent with
    | none => exact hroot
    | some dir => exact Path.isAbsolute_of_parent hfile hparent
  unfold traceEntry
  dsimp only
  rw [isFile_seenFrom hfile, isFile_seenFrom hmap, readText_seenFrom hmap]
  simp only [existingSources_seenFrom hdir]

/-- The operator is offered the same candidates. -/
theorem askOperator_seenFrom (operator : Operator) :
    (w.seenFrom s).askOperator operator root = w.askOperator operator root := by
  unfold askOperator
  rw [findings_seenFrom hroot]

/-- The compiler is launched in the same directory. -/
theorem launch_seenFrom (toolchain : Toolchain) (command : CompilerCommand) :
    (w.seenFrom s).launch toolchain command root = w.launch toolchain command root := by
  unfold launch
  rw [directory_seenFrom hroot, tree_seenFrom]

end Root

end World

/-- The same trace, seen from another current directory in the end. -/
def Traced.seenFrom (traced : Traced) (s : Standpoint) : Traced :=
  { traced with world := traced.world.seenFrom s }

/-- The same run, seen from another current directory in the end. -/
def Run.seenFrom (run : Run) (s : Standpoint) : Run :=
  { run with world := run.world.seenFrom s }

/-- What a compiler lists are absolute paths. -/
def Toolchain.ListsAbsolute (toolchain : Toolchain) : Prop :=
  ∀ invocation t finished, toolchain invocation t = .ok finished → finished.status = .code 0 →
    ∀ file ∈ listing (Text.Utf8.decodeLossy finished.stdout), (Path.mk file).isAbsolute = true

namespace World

/-! ## What a check does -/

variable {w : World} (s : Standpoint)

/-- A trace ends in the same way, its configuration being removed. -/
theorem endTrace_seenFrom {config : Path} (h : config.isAbsolute = true) (events : List Event)
    (result : Except Failure CompilerAnswer) :
    (w.seenFrom s).endTrace config events result =
      (w.endTrace config events result).seenFrom s := by
  unfold endTrace
  rw [removeConfig_seenFrom h]
  rfl

/-- A whole trace in an absolute root does the same. -/
theorem trace_seenFrom {root : Path} (hroot : root.isAbsolute = true) (toolchain : Toolchain)
    (command : CompilerCommand) (files : List String) :
    (w.seenFrom s).trace toolchain root command files =
      (w.trace toolchain root command files).seenFrom s := by
  have hconfig := Path.isAbsolute_join hroot ⟨Layout.checkConfigFile⟩
  unfold trace
  split
  · rfl
  · dsimp only
    rw [writeText_seenFrom hconfig]
    -- the configuration is removed from the root at every end of a trace
    cases w.writeText (root.join ⟨Layout.checkConfigFile⟩) _ with
    | error cause => exact endTrace_seenFrom s hconfig _ _
    | ok ready =>
      dsimp only [Except.map]
      rw [launch_seenFrom hroot]
      cases ready.launch toolchain command root with
      | error cause => exact endTrace_seenFrom s hconfig _ _
      | ok launched =>
        obtain ⟨invocation, finished⟩ := launched
        exact endTrace_seenFrom (w := { ready with tree := finished.tree }) s hconfig _ _

/-- What a trace lists is what a compiler that ended well has listed. -/
theorem of_trace_eq_listed {root : Path} {toolchain : Toolchain} {command : CompilerCommand}
    {files listed : List String}
    (h : (w.trace toolchain root command files).result = .ok (.listed listed)) :
    ∃ invocation t finished, toolchain invocation t = .ok finished ∧ finished.status = .code 0 ∧
      listed = listing (Text.Utf8.decodeLossy finished.stdout) := by
  unfold trace at h
  split at h
  · exact nomatch h
  dsimp only at h
  split at h
  · exact nomatch h
  rename_i ready _
  split at h
  · exact nomatch h
  rename_i invocation finished hlaunch
  -- all other ends of a trace give no listing
  obtain ⟨-, -, -, hrun⟩ := of_launch hlaunch
  have houtcome : finished.outcome command.display = .ok (.listed listed) := h
  unfold Finished.outcome at houtcome
  split at houtcome
  · rename_i hstatus
    cases houtcome
    exact ⟨invocation, ready.tree, finished, hrun, hstatus, rfl⟩
  · split at houtcome <;> exact nomatch houtcome

/-- The packages of absolute paths do not depend on the current directory. -/
theorem flagged_seenFrom (m : Manifest) {files : List String}
    (h : ∀ file ∈ files, (Path.mk file).isAbsolute = true) :
    (w.seenFrom s).flagged m files = w.flagged m files := by
  unfold flagged
  dsimp only
  rw [packageRoots_congr_of_mem fun dir hdir q hq => ?_]
  -- a directory of a listed file is absolute, and so are those above it
  rw [Package.keepFirstPaths_eq] at hdir
  obtain ⟨file, hfile, hparent⟩ := List.mem_filterMap.1 (Package.mem_of_mem_keepFirst hdir)
  have hq' := Path.isAbsolute_of_mem_ancestors (Path.isAbsolute_of_parent (h file hfile) hparent)
    ((List.takeWhile_sublist _).subset hq)
  exact isFile_seenFrom (Path.isAbsolute_join hq' _) s

/-- The root of a project that is given by an absolute path. -/
theorem isAbsolute_canonical {root : Path} (habs : root.isAbsolute = true) :
    ((w.canonical root).toOption.getD root).isAbsolute = true := by
  cases hcanonical : w.canonical root with
  | error cause => exact habs
  | ok q =>
    obtain ⟨loc, _, -, -, rfl⟩ := canonical_eq_ok_iff.1 hcanonical
    exact Path.isAbsolute_iff.2 ⟨_, rfl⟩

/-- The project at an absolute root is the same one. -/
theorem project_seenFrom {o : Options} {root : Path} (hroot : o.root = some root)
    (habs : root.isAbsolute = true) : o.project (w.seenFrom s) = o.project w := by
  -- an absolute root has the same canonical path from everywhere
  have hlocate : o.locate (w.seenFrom s) = o.locate w := by
    unfold Options.locate
    rw [hroot]
    dsimp only
    rw [canonical_seenFrom habs]
  have hready : o.locate w =
      .ok { o with root := some ((w.canonical root).toOption.getD root) } := by
    unfold Options.locate
    rw [hroot]
  unfold Options.project
  rw [hlocate, hready]
  dsimp only [bind, Except.bind, Options.knownRoot]
  rw [manifest_seenFrom (isAbsolute_canonical habs)]

/-- The files to be traced are chosen alike. -/
theorem chooseFiles_seenFrom (operator : Operator) {p : Project} (h : p.root.isAbsolute = true)
    (provided : List String) :
    (w.seenFrom s).chooseFiles operator p provided = w.chooseFiles operator p provided := by
  have htraces : (w.seenFrom s).traceEntries p = w.traceEntries p := by
    unfold traceEntries
    simp only [traceEntry_seenFrom h]
  unfold chooseFiles
  rw [askOperator_seenFrom h, htraces]

/-- They are checked alike, if the compiler lists absolute paths. -/
theorem checkFiles_seenFrom {toolchain : Toolchain} (hlists : toolchain.ListsAbsolute)
    {p : Project} (h : p.root.isAbsolute = true) (files : List String) :
    (w.seenFrom s).checkFiles toolchain p files = (w.checkFiles toolchain p files).seenFrom s := by
  unfold checkFiles
  dsimp only
  rw [trace_seenFrom s h]
  dsimp only [Traced.seenFrom]
  split
  · rfl
  · rfl
  · -- the listing is the only result that paths come in by
    rename_i listed hlisted
    obtain ⟨invocation, t, finished, hrun, hstatus, rfl⟩ := of_trace_eq_listed hlisted
    rw [flagged_seenFrom s _ (hlists invocation t finished hrun hstatus)]
    rfl

/-- A whole check does the same: only a listing could bring in a relative path. -/
theorem check_seenFrom {toolchain : Toolchain} (hlists : toolchain.ListsAbsolute)
    (operator : Operator) {o : Options} {root : Path} (hroot : o.root = some root)
    (habs : root.isAbsolute = true) :
    (w.seenFrom s).check toolchain operator o = (w.check toolchain operator o).seenFrom s := by
  unfold check
  rw [project_seenFrom s hroot habs]
  -- the root of the project is absolute again, and everything else is joined to it
  cases hproject : o.project w with
  | error failure => rfl
  | ok p =>
    have hp : p.root.isAbsolute = true := by
      rw [(root_of_project hproject).1 root hroot]
      exact isAbsolute_canonical habs
    dsimp only
    rw [chooseFiles_seenFrom s operator hp]
    split
    · rfl
    · rfl
    · rw [checkFiles_seenFrom s hlists hp]
      rfl

/-- In the same file system, a check of a project that is given by an absolute root comes to the same
    result, reports, asks and launches the same in the same order, and leaves the same files behind,
    whatever the current directory is. -/
theorem check_eq_of_tree_eq (w w' : World) (htree : w'.tree = w.tree) (toolchain : Toolchain)
    (hlists : toolchain.ListsAbsolute) (operator : Operator) (o : Options) (root : Path)
    (hroot : o.root = some root) (habs : root.isAbsolute = true) :
    (w'.check toolchain operator o).result = (w.check toolchain operator o).result ∧
      (w'.check toolchain operator o).events = (w.check toolchain operator o).events ∧
      (w'.check toolchain operator o).world.tree = (w.check toolchain operator o).world.tree := by
  -- two worlds with the same files are one world seen from two directories
  have hw' : w' = w.seenFrom w'.cwd := by
    unfold seenFrom
    rw [← htree]
  rw [hw', check_seenFrom _ hlists operator hroot habs]
  exact ⟨rfl, rfl, rfl⟩

/-- The installed project with a manifest that declares one of its packages for development only. -/
def leakyProject : World :=
  { installedProject with
    tree := installedProject.tree.insert ["p", "package.json"]
      (.file (Text.Utf8.encode "\x7b\"devDependencies\": \x7b\"left-pad\": \"1\"\x7d\x7d") false) }

/-- A compiler that loads a file of that package. -/
def listingToolchain : Toolchain :=
  fun _ t => .ok ⟨Text.Utf8.encode "/p/node_modules/left-pad/index.d.ts\n", [], .code 0, t⟩

/-- The package is flagged from the root, and from a directory that has been removed. -/
theorem check_eq_of_tree_eq_leaky :
    listingToolchain.ListsAbsolute ∧
      (leakyProject.check listingToolchain .absent ⟨["a.ts"], some ⟨"/p"⟩, "tsc"⟩).result =
        .ok (.checked ["left-pad"] 1) ∧
      ((leakyProject.seenFrom ⟨["p"], 1⟩).check listingToolchain .absent
        ⟨["a.ts"], some ⟨"/p"⟩, "tsc"⟩).result = .ok (.checked ["left-pad"] 1) := by
  -- it prints an absolute path whatever it is launched for
  have hlists : listingToolchain.ListsAbsolute := by
    intro invocation t finished hrun _
    cases hrun
    dsimp only
    decide +kernel
  have hflagged : (leakyProject.check listingToolchain .absent
      ⟨["a.ts"], some ⟨"/p"⟩, "tsc"⟩).result = .ok (.checked ["left-pad"] 1) := by decide +kernel
  have hsame := (check_eq_of_tree_eq leakyProject (leakyProject.seenFrom ⟨["p"], 1⟩) rfl
    listingToolchain hlists .absent ⟨["a.ts"], some ⟨"/p"⟩, "tsc"⟩ ⟨"/p"⟩ rfl (by decide)).1
  exact ⟨hlists, hflagged, hsame.trans hflagged⟩

end World

end TypeLeak
