import TypeLeak.Proofs.CompilerLaunch

/-!
# What a check changes

A check writes one file and removes it again.  Writing goes through a link that stands at the path
of that file, and removing takes out the link.  So, apart from the entry at that path, a check
leaves the file system as it was, unless that entry is a link: then the file that the link leads to
is written, and stays.

## Key results

- `get?_removeConfig`: the removal changes nothing but the entry of its path
- `seat_of_writesTo`: without a link a file is written where its path says
- `footprint_trace`: what a trace changes
- `check_footprint`: so does a check, and it changes nothing if there is nothing to trace
-/

namespace TypeLeak

namespace World

/-- The entry that a path names is a link. -/
def holdsLink (w : World) (p : Path) : Bool :=
  match w.tree.seat w.cwd p with
  | .ok loc =>
    match w.tree.get? loc with
    | some (.link _) => true
    | _ => false
  | .error _ => false

/-- Where a text ends up that is written to a path, if a link stands there. -/
def writesThrough (w : World) (p : Path) : Option Location :=
  if w.holdsLink p then w.writesTo p else none

variable {w : World} {p : Path} {name : OsText}

/-! ## Writing -/

/-- Nothing is written to the root. -/
theorem ne_nil_of_writesTo (hw : w.tree.WellFormed) {loc : Location}
    (h : w.writesTo p = some loc) : loc ≠ [] := by
  obtain ⟨found, hfound, hloc⟩ := of_writesTo h
  obtain ⟨-, -, hfree⟩ := isProper_of_resolveFor hw hfound hloc
  rintro rfl
  rw [FileTree.isDirectory_nil] at hfree
  exact nomatch hfree

/-- A text ends up where its path says, unless a link stands there. -/
theorem seat_of_writesTo (hw : w.tree.WellFormed) (hname : Path.IsName name) {loc : Location}
    (h : w.writesTo (p.join ⟨name⟩) = some loc) (hlink : w.holdsLink (p.join ⟨name⟩) = false) :
    w.tree.seat w.cwd (p.join ⟨name⟩) = .ok loc := by
  obtain ⟨found, hfound, hloc⟩ := of_writesTo h
  obtain ⟨hlong, hnul, links, dir, hreach, hwalk⟩ := (resolveFor_join hname).1 hfound
  have ⟨_, hstart, rest, _, hleads⟩ := hreach
  have hdir : w.tree.isDirectory dir = true := hw.isDirectory_of_leads hleads hstart
  rw [FileTree.walk_enter, if_neg (by simp [onlySlashes])] at hwalk
  split at hwalk
  · cases hwalk
  rename_i hsize
  have hseat := (seat_join hname).2
    ⟨hlong, hnul, Nat.not_lt.1 hsize, links, dir, hreach, hdir, rfl⟩
  rw [hseat]
  unfold holdsLink at hlink
  rw [hseat] at hlink
  -- a free name and a file are found where they are; a directory is not written to
  cases hget : w.tree.get? (dir ++ [name]) with
  | none =>
    simp only [hget, if_true] at hwalk
    cases hwalk
    rcases hloc with hloc | ⟨_, _, hloc⟩ <;> cases hloc
    rfl
  | some e =>
    cases e with
    | directory =>
      simp only [hget] at hwalk
      rw [FileTree.walk_nil, if_pos (FileTree.isDirectory_iff.2 hget)] at hwalk
      cases hwalk
      rcases hloc with hloc | ⟨_, _, hloc⟩ <;> cases hloc
    | file bytes executable =>
      simp only [hget, if_true] at hwalk
      cases hwalk
      rcases hloc with hloc | ⟨_, _, hloc⟩ <;> cases hloc
      rfl
    | link target => simp [hget] at hlink

/-! ## Removing -/

/-- The removal of a configuration file changes nothing but the entry of its path. -/
theorem get?_removeConfig {loc : Location} (hloc : w.tree.seat w.cwd p ≠ .ok loc) :
    (w.removeConfig p).1.tree.get? loc = w.tree.get? loc := by
  unfold removeConfig
  split
  · cases hunlink : w.unlink p with
    | error cause => rfl
    | ok left =>
      obtain ⟨seat, e, hseat, -, -, rfl⟩ := of_unlink hunlink
      -- the only entry taken out is the one of the path, wherever its directory really is
      have hne : loc ≠ seat := by
        rintro rfl
        exact hloc hseat
      exact FileTree.get?_erase_of_ne hne
  · rfl

/-- Removing a configuration file leads nowhere else. -/
theorem cwd_removeConfig : (w.removeConfig p).1.cwd = w.cwd := by
  unfold removeConfig
  split
  · cases hunlink : w.unlink p with
    | error cause => rfl
    | ok left =>
      obtain ⟨seat, e, -, -, -, rfl⟩ := of_unlink hunlink
      rfl
  · rfl

/-! ## The whole trace -/

/-- A text was written to a path, if that was not refused, and nothing else was changed. -/
structure Wrote (w : World) (p : Path) (text : String) (left : World) : Prop where
  cwd : left.cwd = w.cwd
  ways : left.tree.WaysIn w.tree
  written : ∀ loc, w.writesTo p = some loc →
    ∃ executable, left.tree.get? loc = some (.file (Text.Utf8.encode text) executable)
  kept : ∀ loc, w.writesTo p ≠ some loc → left.tree.get? loc = w.tree.get? loc

/-- So it is after the text was written. -/
theorem wrote_of_writeText (hw : w.tree.WellFormed) {text : String} {ready : World}
    (h : w.writeText p text = .ok ready) : w.Wrote p text ready := by
  obtain ⟨hcwd, hways⟩ := keeps_of_writeText h
  obtain ⟨place, executable, hplace, rfl⟩ := of_writeText h
  have hne := ne_nil_of_writesTo hw hplace
  -- the file is at its place, and an insertion shows through at no other
  refine ⟨hcwd, hways, fun loc hloc => ⟨executable, ?_⟩, fun loc hloc => ?_⟩
  · cases hplace.symm.trans hloc
    rw [FileTree.get?_insert, if_neg hne, if_pos rfl]
  · have hother : loc ≠ place := by
      rintro rfl
      exact hloc hplace
    exact FileTree.get?_insert_of_ne hother _

/-- So it is after writing was refused. -/
theorem wrote_of_refused {text : String} {cause : OsError}
    (h : w.writeText p text = .error cause) : w.Wrote p text w := by
  have hwrite := w.writeText_eq p text
  refine ⟨rfl, fun _ _ hget _ => hget, fun loc hloc => ?_, fun _ _ => rfl⟩
  -- a path with a place to write to is one that writing is not refused at
  rw [hloc] at hwrite
  obtain ⟨executable, hwritten⟩ := hwrite
  rw [h] at hwritten
  exact nomatch hwritten

/-- A program that changes no file changes nothing of this. -/
theorem Wrote.of_get? {text : String} {left : World} (h : w.Wrote p text left) {t : FileTree}
    (ht : ∀ loc, t.get? loc = left.tree.get? loc) : w.Wrote p text { left with tree := t } where
  cwd := h.cwd
  ways := fun loc e hget => h.ways loc e ((ht loc).symm.trans hget)
  written := fun loc hloc => by
    obtain ⟨executable, hget⟩ := h.written loc hloc
    exact ⟨executable, (ht loc).trans hget⟩
  kept := fun loc hloc => (ht loc).trans (h.kept loc hloc)

/-- Apart from the entry at a path, what was changed is the file that a link there leads to, which
    holds the text now. -/
structure Footprint (w : World) (p : Path) (text : String) (left : World) : Prop where
  cwd : left.cwd = w.cwd
  written : ∀ loc, w.tree.seat w.cwd p ≠ .ok loc → w.writesThrough p = some loc →
    ∃ executable, left.tree.get? loc = some (.file (Text.Utf8.encode text) executable)
  kept : ∀ loc, w.tree.seat w.cwd p ≠ .ok loc → w.writesThrough p ≠ some loc →
    left.tree.get? loc = w.tree.get? loc

/-- The removal takes back what was written, but for what was written through a link. -/
theorem Wrote.footprint (hw : w.tree.WellFormed) (hname : Path.IsName name) {text : String}
    {left : World} (h : w.Wrote (p.join ⟨name⟩) text left) :
    w.Footprint (p.join ⟨name⟩) text (left.removeConfig (p.join ⟨name⟩)).1 := by
  -- the entry is where it was, as no way has been changed
  have hkept : ∀ loc, w.tree.seat w.cwd (p.join ⟨name⟩) ≠ .ok loc →
      (left.removeConfig (p.join ⟨name⟩)).1.tree.get? loc = left.tree.get? loc := fun loc hloc =>
    get?_removeConfig fun hseat => hloc (seat_mono hname h.cwd.symm h.ways hseat)
  refine ⟨cwd_removeConfig.trans h.cwd, fun loc hloc hthrough => ?_, fun loc hloc hthrough => ?_⟩
  · -- where the link leads is written to, and the removal takes the link alone
    unfold writesThrough at hthrough
    split at hthrough
    · rw [hkept loc hloc]
      exact h.written loc hthrough
    · exact nomatch hthrough
  · -- any other location was written to neither through a link nor at the entry itself
    rw [hkept loc hloc]
    apply h.kept
    intro hwrites
    cases hlink : w.holdsLink (p.join ⟨name⟩) with
    | true =>
      apply hthrough
      rw [writesThrough, if_pos hlink, hwrites]
    | false => exact hloc (seat_of_writesTo hw hname hwrites hlink)

/-- What a trace changes, if the compiler changes no file itself. -/
theorem footprint_trace (hw : w.tree.WellFormed) (toolchain : Toolchain) (root : Path)
    (command : CompilerCommand) {files : List String} (hfiles : files ≠ [])
    (hquiet : ∀ invocation t finished,
      Event.launched invocation t ∈ (w.trace toolchain root command files).events →
      toolchain invocation t = .ok finished → ∀ loc, finished.tree.get? loc = t.get? loc) :
    w.Footprint (root.join ⟨Layout.checkConfigFile⟩)
      (CompilerConfig.json ⟨(root.join ⟨Layout.projectConfigFile⟩).lossy, files⟩)
      (w.trace toolchain root command files).world := by
  have hname := isName_checkConfigFile
  unfold trace at hquiet ⊢
  rw [show CompilerConfig.forFiles _ files = .ok ⟨_, files⟩ from if_neg hfiles] at hquiet ⊢
  dsimp only at hquiet ⊢
  -- the removal comes at the end of every outcome: only what it follows differs
  cases hwrite : w.writeText (root.join ⟨Layout.checkConfigFile⟩)
      (CompilerConfig.json ⟨(root.join ⟨Layout.projectConfigFile⟩).lossy, files⟩) with
  | error cause => exact (wrote_of_refused hwrite).footprint hw hname
  | ok ready =>
    have hwrote := wrote_of_writeText hw hwrite
    rw [hwrite] at hquiet
    dsimp only at hquiet ⊢
    cases hlaunch : ready.launch toolchain command root with
    | error cause => exact hwrote.footprint hw hname
    | ok run =>
      obtain ⟨invocation, finished⟩ := run
      obtain ⟨-, -, -, hfinished⟩ := of_launch hlaunch
      rw [hlaunch] at hquiet
      -- the compiler ran on what had been written, and changed no file of it
      have hsame := hquiet invocation ready.tree finished (by simp [endTrace]) hfinished
      exact (hwrote.of_get? hsame).footprint hw hname

/-! ## The whole check -/

/-- A check that has files to trace leaves the world that its trace leaves, and does all that its
    trace does. -/
private theorem check_of_files (toolchain : Toolchain) (operator : Operator) {o : Options}
    {p : Project} {files : List String} (hproject : o.project w = .ok p)
    (hchosen : w.filesToTrace operator p o.files = .ok files) (hfiles : files ≠ []) :
    (w.check toolchain operator o).world = (w.trace toolchain p.root p.command files).world ∧
      ∀ event ∈ (w.trace toolchain p.root p.command files).events,
        event ∈ (w.check toolchain operator o).events := by
  -- the report comes after the trace, and touches nothing
  have hrun : (w.checkFiles toolchain p files).world =
        (w.trace toolchain p.root p.command files).world ∧
      (w.trace toolchain p.root p.command files).events ⊆
        (w.checkFiles toolchain p files).events := by
    unfold checkFiles
    dsimp only
    split
    · exact ⟨rfl, List.Subset.refl _⟩
    · exact ⟨rfl, List.subset_append_left _ _⟩
    · exact ⟨rfl, List.subset_append_left _ _⟩
  rw [check_eq_of_files hproject hchosen hfiles]
  exact ⟨hrun.1, fun event hevent => List.mem_append_right _ (hrun.2 hevent)⟩

/-- A check that has none leaves everything as it was. -/
private theorem world_check_of_nothing (toolchain : Toolchain) (operator : Operator) {o : Options}
    (h : ∀ p files, o.project w = .ok p → w.filesToTrace operator p o.files = .ok files →
      files = []) : (w.check toolchain operator o).world = w := by
  -- there are three ways to have nothing to trace: no project, no decision, no files
  cases hproject : o.project w with
  | error failure => rw [check_eq_of_no_project hproject]
  | ok p =>
    cases hchosen : w.filesToTrace operator p o.files with
    | error failure => rw [check_eq_of_undecided hproject hchosen]
    | ok files =>
      rw [h p files hproject hchosen] at hchosen
      rw [check_eq_of_nothing hproject hchosen]

/-- A check with nothing to trace changes nothing, and one that traces files leaves the footprint
    of the configuration of its trace: whatever the project is, however the files were decided on
    and however the check ends, provided that the compiler changes no file itself. -/
theorem check_footprint (w : World) (toolchain : Toolchain) (operator : Operator) (o : Options)
    (hw : w.tree.WellFormed)
    (hquiet : ∀ invocation t finished,
      Event.launched invocation t ∈ (w.check toolchain operator o).events →
      toolchain invocation t = .ok finished → ∀ loc, finished.tree.get? loc = t.get? loc) :
    (∀ p files, o.project w = .ok p → w.filesToTrace operator p o.files = .ok files → files ≠ [] →
        w.Footprint (p.root.join ⟨"tsconfig-check.json"⟩)
          (CompilerConfig.json ⟨(p.root.join ⟨"tsconfig.json"⟩).lossy, files⟩)
          (w.check toolchain operator o).world) ∧
      ((∀ p files, o.project w = .ok p → w.filesToTrace operator p o.files = .ok files →
        files = []) → (w.check toolchain operator o).world = w) := by
  refine ⟨fun p files hproject hchosen hfiles => ?_, world_check_of_nothing toolchain operator⟩
  obtain ⟨hworld, hevents⟩ := check_of_files toolchain operator hproject hchosen hfiles
  rw [hworld]
  exact footprint_trace hw toolchain p.root p.command hfiles
    fun invocation t finished hevent => hquiet invocation t finished (hevents _ hevent)

/-- Nothing but the configuration's own entry can have been changed where no link stands. -/
theorem check_footprint_near :
    nearProject.tree.WellFormed ∧
      ∀ loc, loc ≠ (["p", "tsconfig-check.json"] : Location) →
        (nearProject.check killedToolchain .absent nearOptions).world.tree.get? loc =
          nearProject.tree.get? loc := by
  have hw : nearProject.tree.WellFormed := by decide
  have hproject : nearOptions.project nearProject =
      .ok ⟨⟨"/p"⟩, ⟨none, none, none, none, none⟩, ⟨"tsc", []⟩⟩ := by decide +kernel
  have hseat : nearProject.tree.seat nearProject.cwd
      ((Path.mk "/p").join ⟨"tsconfig-check.json"⟩) = .ok ["p", "tsconfig-check.json"] := by
    decide +kernel
  have hthrough : nearProject.writesThrough ((Path.mk "/p").join ⟨"tsconfig-check.json"⟩) = none := by
    decide +kernel
  obtain ⟨hfootprint, -⟩ := check_footprint nearProject killedToolchain .absent nearOptions hw
    fun _ _ _ _ hrun _ => by cases hrun; rfl
  have hleft := hfootprint _ ["a.ts"] hproject rfl (by simp)
  -- no link stands there, so the entry itself is all that can differ
  refine ⟨hw, fun loc hloc => hleft.kept loc ?_ ?_⟩
  · rw [hseat]
    exact fun h => hloc (Except.ok.inj h).symm
  · rw [hthrough]
    exact nofun

/-- The same project with a link to its notes at the path of the configuration. -/
def aliasedProject : World :=
  .inside (.ofEntries ((["p", "notes.txt"], .file (Text.Utf8.encode "keep") false) ::
    (["p", "tsconfig-check.json"], .link ⟨"notes.txt"⟩) :: nearProject.tree.entries)) ["p"]

/-- The notes are written over. -/
theorem check_overwrites_aliased :
    aliasedProject.tree.WellFormed ∧
      (∀ invocation t finished, killedToolchain invocation t = .ok finished → finished.tree = t) ∧
      aliasedProject.tree.get? ["p", "notes.txt"] =
        some (.file (Text.Utf8.encode "keep") false) ∧
      (aliasedProject.check killedToolchain .absent nearOptions).world.tree.get? ["p", "notes.txt"] =
        some (.file (Text.Utf8.encode (CompilerConfig.json ⟨"/p/tsconfig.json", ["a.ts"]⟩)) false) := by
  refine ⟨by decide, fun _ _ _ hrun => by cases hrun; rfl, by decide +kernel, by decide +kernel⟩

end World

end TypeLeak
