import TypeLeak.Trace
import TypeLeak.Proofs.WellFormedTree

/-!
# What a trace leaves behind

A trace puts a configuration file next to the project's manifest and takes it out again however it
ends.  Whether something is there is asked through links, while taking out acts on the entry
itself, so the two look-ups are brought together here: both go to the directory that the
project's path reaches and differ only in what they do with the entry of that name.

## Key results

- `exists?_removeConfig`: after the removal only a directory can still be there
- `holdsDirectory_of_writeText`: where a file was written there was no directory, and is none
- `exists_config_after_trace`: what is there after a trace, however it ends
-/

namespace TypeLeak

namespace World

/-- The entry that a path names is a directory, not a link to one. -/
def holdsDirectory (w : World) (p : Path) : Bool :=
  match w.tree.seat w.cwd p with
  | .ok loc => w.tree.isDirectory loc
  | .error _ => false

variable {w : World} {p : Path} {name : OsText}

/-- A directory is held at a path exactly if the entry of the path is one. -/
theorem holdsDirectory_eq_iff :
    w.holdsDirectory p = true ↔
      ∃ loc, w.tree.seat w.cwd p = .ok loc ∧ w.tree.isDirectory loc = true := by
  unfold holdsDirectory
  cases w.tree.seat w.cwd p with
  | error e => simp
  | ok loc => simp

/-- Where a name leads from the directory of its entry, if that entry is a directory. -/
private theorem walk_directory {purpose : Purpose} {links : Nat} {dir : Location}
    (hsize : name.size ≤ maxName)
    (hentry : w.tree.isDirectory (dir ++ [name]) = true) :
    w.tree.walk purpose links dir [.enter name] = .ok (.present (dir ++ [name]) .directory) := by
  have hget := FileTree.isDirectory_iff.1 hentry
  rw [FileTree.walk_enter, if_neg (by simp [onlySlashes]), if_neg (Nat.not_lt.2 hsize), hget]
  show w.tree.walk purpose links (dir ++ [name]) [] = _
  rw [FileTree.walk_nil, if_pos hentry]

/-- A directory is found whatever it is looked for. -/
theorem resolveFor_of_holdsDirectory (hname : Path.IsName name)
    (h : w.holdsDirectory (p.join ⟨name⟩) = true) (purpose : Purpose) :
    ∃ loc, w.tree.resolveFor purpose w.cwd (p.join ⟨name⟩) = .ok (.present loc .directory) := by
  obtain ⟨loc, hseat, hentry⟩ := holdsDirectory_eq_iff.1 h
  obtain ⟨hlong, hnul, hsize, links, dir, hreach, -, rfl⟩ := (seat_join hname).1 hseat
  exact ⟨dir ++ [name],
    (resolveFor_join hname).2 ⟨hlong, hnul, links, dir, hreach, walk_directory hsize hentry⟩⟩

/-- What holds a directory exists. -/
theorem exists?_of_holdsDirectory (hname : Path.IsName name)
    (h : w.holdsDirectory (p.join ⟨name⟩) = true) : w.exists? (p.join ⟨name⟩) = true := by
  obtain ⟨loc, hloc⟩ := resolveFor_of_holdsDirectory hname h .reading
  exact (exists?_join_iff hname).2 ⟨loc, _, hloc⟩

/-- A path that leads to something has an entry, which is there in a well-formed tree. -/
theorem seat_of_exists? (hw : w.tree.WellFormed) (hname : Path.IsName name)
    (h : w.exists? (p.join ⟨name⟩) = true) :
    ∃ loc e, w.tree.seat w.cwd (p.join ⟨name⟩) = .ok loc ∧ w.tree.get? loc = some e := by
  obtain ⟨loc, e, hresolve⟩ := (exists?_join_iff hname).1 h
  obtain ⟨hlong, hnul, links, dir, hreach, hwalk⟩ := (resolve_join hname).1 hresolve
  have ⟨_, hstart, rest, _, hleads⟩ := hreach
  have hdir : w.tree.isDirectory dir = true := hw.isDirectory_of_leads hleads hstart
  rw [FileTree.walk_enter] at hwalk
  -- a name too long for an entry is refused, and the walk ended, so it is not
  split at hwalk
  · exact nomatch hwalk
  split at hwalk
  · exact nomatch hwalk
  rename_i hsize
  have hseat := (seat_join hname).2
    ⟨hlong, hnul, Nat.not_lt.1 hsize, links, dir, hreach, hdir, rfl⟩
  -- a free name leads to nothing, and the other entries are there
  cases hget : w.tree.get? (dir ++ [name]) with
  | none => simp [hget] at hwalk
  | some entry => exact ⟨_, entry, hseat, hget⟩

/-! ## Taking the file out -/

/-- Once its entry is taken out, a path leads to nothing. -/
theorem exists?_erase (hname : Path.IsName name) {loc : Location}
    (hseat : w.tree.seat w.cwd (p.join ⟨name⟩) = .ok loc) :
    exists? { w with tree := w.tree.erase loc } (p.join ⟨name⟩) = false := by
  obtain ⟨-, -, -, links, dir, hreach, -, rfl⟩ := (seat_join hname).1 hseat
  rw [Bool.eq_false_iff]
  intro hexists
  obtain ⟨loc', e, hresolve⟩ := (exists?_join_iff hname).1 hexists
  obtain ⟨-, -, links', dir', hreach', hwalk⟩ := (resolve_join hname).1 hresolve
  -- whatever the path still reaches it reached before, so it goes to the directory of the entry
  have hbefore : w.Reaches p links' dir' :=
    hreach'.mono rfl (w.tree.waysIn_of_erase (dir ++ [name]))
  obtain ⟨-, rfl⟩ := hbefore.unique hreach
  -- and there the name is free now
  have hfree : (w.tree.erase (dir' ++ [name])).get? (dir' ++ [name]) = none := by
    rw [FileTree.get?_erase]
    simp
  rw [FileTree.walk_enter, hfree] at hwalk
  split at hwalk
  · exact nomatch hwalk
  split at hwalk
  · exact nomatch hwalk
  · exact nomatch hwalk

private theorem unlink_of_seat {loc : Location} {e : Entry}
    (hseat : w.tree.seat w.cwd p = .ok loc) (hget : w.tree.get? loc = some e)
    (hentry : e ≠ .directory) : w.unlink p = .ok { w with tree := w.tree.erase loc } := by
  unfold unlink
  rw [hseat]
  -- files and links are unlinked alike
  cases e with
  | directory => exact absurd rfl hentry
  | file _ _ => simp only [hget]
  | link _ => simp only [hget]

/-- After the removal of a configuration file only a directory can still be there. -/
theorem exists?_removeConfig (hw : w.tree.WellFormed) (hname : Path.IsName name) :
    (w.removeConfig (p.join ⟨name⟩)).1.exists? (p.join ⟨name⟩) = w.holdsDirectory (p.join ⟨name⟩) := by
  unfold removeConfig
  -- nothing is taken out unless something is found through links
  by_cases hexists : w.exists? (p.join ⟨name⟩) = true
  · rw [if_pos hexists]
    obtain ⟨loc, e, hseat, hget⟩ := seat_of_exists? hw hname hexists
    by_cases hentry : e = .directory
    · -- a directory cannot be unlinked
      subst hentry
      have hunlink : w.unlink (p.join ⟨name⟩) = .error .isDirectory := by
        unfold unlink
        rw [hseat]
        simp only [hget]
      rw [hunlink, hexists]
      symm
      exact holdsDirectory_eq_iff.2 ⟨loc, hseat, FileTree.isDirectory_iff.2 hget⟩
    · rw [unlink_of_seat hseat hget hentry]
      show exists? { w with tree := w.tree.erase loc } (p.join ⟨name⟩) = _
      rw [exists?_erase hname hseat]
      simp [holdsDirectory, hseat, FileTree.isDirectory, hget, hentry]
  · -- a link to nothing stays, but leads to nothing now as before
    rw [if_neg hexists, Bool.eq_false_iff.2 hexists]
    symm
    rw [Bool.eq_false_iff]
    exact fun hdir => hexists (exists?_of_holdsDirectory hname hdir)

/-! ## Writing the file -/

/-- Writing moves nobody, and puts in nothing but a file. -/
theorem keeps_of_writeText {text : String} {ready : World} (h : w.writeText p text = .ok ready) :
    ready.cwd = w.cwd ∧ ready.tree.WaysIn w.tree := by
  obtain ⟨loc, executable, -, rfl⟩ := of_writeText h
  exact ⟨rfl, w.tree.waysIn_of_insert _ _ _⟩

/-- Where a file was written there was no directory before, and there is none now. -/
theorem holdsDirectory_of_writeText (hname : Path.IsName name) {text : String} {ready : World}
    (h : w.writeText (p.join ⟨name⟩) text = .ok ready) :
    w.holdsDirectory (p.join ⟨name⟩) = false ∧ ready.holdsDirectory (p.join ⟨name⟩) = false := by
  have hbefore : w.holdsDirectory (p.join ⟨name⟩) = false := by
    rw [Bool.eq_false_iff]
    intro hdir
    obtain ⟨loc, hloc⟩ := resolveFor_of_holdsDirectory hname hdir .writing
    rw [writeText, hloc] at h
    exact nomatch h
  refine ⟨hbefore, ?_⟩
  -- only a file has been put in, so a directory there would have been there before
  obtain ⟨hcwd, hways⟩ := keeps_of_writeText h
  rw [Bool.eq_false_iff] at hbefore ⊢
  intro hdir
  apply hbefore
  obtain ⟨loc, hseat, hentry⟩ := holdsDirectory_eq_iff.1 hdir
  exact holdsDirectory_eq_iff.2
    ⟨loc, seat_mono hname hcwd.symm hways hseat, hways.isDirectory hentry⟩

/-! ## The whole trace -/

/-- A launch that succeeds is one of the command in the directory that its path leads to. -/
theorem of_launch {toolchain : Toolchain} {command : CompilerCommand} {invocation : Invocation}
    {finished : Finished} (h : w.launch toolchain command p = .ok (invocation, finished)) :
    ∃ dir, w.directory p = .ok dir ∧ invocation = ⟨command.program, command.traceArgs, dir⟩ ∧
      toolchain invocation w.tree = .ok finished := by
  -- the three refusals come first: no program, no directory, no start
  unfold launch at h
  split at h
  · exact nomatch h
  split at h
  · exact nomatch h
  rename_i dir hdir
  dsimp only at h
  split at h
  · exact nomatch h
  · rename_i hrun
    cases h
    exact ⟨dir, hdir, rfl, hrun⟩

/-- The configuration file of a check is called by a plain name. -/
theorem isName_checkConfigFile : Path.IsName Layout.checkConfigFile := by decide

/-- A trace leaves its configuration file behind only if it had nothing to trace or a directory
    stood there: whatever was at the path before, however the trace ends and whatever the
    compiler did meanwhile, provided that it put no directory there itself. -/
theorem exists_config_after_trace (w : World) (toolchain : Toolchain) (root : Path)
    (command : CompilerCommand) (files : List String) (hw : w.tree.WellFormed)
    (hlawful : ∀ invocation t finished,
      Event.launched invocation t ∈ (w.trace toolchain root command files).events →
      toolchain invocation t = .ok finished → t.WellFormed → finished.tree.WellFormed)
    (hput : ∀ invocation t finished,
      Event.launched invocation t ∈ (w.trace toolchain root command files).events →
      toolchain invocation t = .ok finished →
      holdsDirectory ⟨finished.tree, w.cwd⟩ (root.join ⟨Layout.checkConfigFile⟩) = true →
      holdsDirectory ⟨t, w.cwd⟩ (root.join ⟨Layout.checkConfigFile⟩) = true) :
    (w.trace toolchain root command files).world.exists? (root.join ⟨Layout.checkConfigFile⟩) = true ↔
      (files = [] ∧ w.exists? (root.join ⟨Layout.checkConfigFile⟩) = true) ∨
        w.holdsDirectory (root.join ⟨Layout.checkConfigFile⟩) = true := by
  have hname := isName_checkConfigFile
  by_cases hfiles : files = []
  · -- nothing is touched, and a directory exists
    have htrace : (w.trace toolchain root command files).world = w := by
      simp [trace, CompilerConfig.forFiles, hfiles]
    rw [htrace]
    constructor
    · exact fun h => .inl ⟨hfiles, h⟩
    · rintro (⟨-, h⟩ | h)
      · exact h
      · exact exists?_of_holdsDirectory hname h
  simp only [hfiles, false_and, false_or]
  unfold trace at hlawful hput ⊢
  rw [show CompilerConfig.forFiles _ files = .ok ⟨_, files⟩ from if_neg hfiles] at hlawful hput ⊢
  dsimp only at hlawful hput ⊢
  cases hwrite : w.writeText (root.join ⟨Layout.checkConfigFile⟩)
      (CompilerConfig.json ⟨(root.join ⟨Layout.projectConfigFile⟩).lossy, files⟩) with
  | error cause =>
    -- the removal takes place all the same
    show (w.removeConfig _).1.exists? _ = true ↔ _
    rw [exists?_removeConfig hw hname]
  | ok ready =>
    obtain ⟨hbefore, hready⟩ := holdsDirectory_of_writeText hname hwrite
    have hcwd := (keeps_of_writeText hwrite).1
    rw [hwrite] at hlawful hput
    dsimp only at hlawful hput ⊢
    rw [hbefore]
    cases hlaunch : ready.launch toolchain command root with
    | error cause =>
      -- only the file was written, where no directory is now
      show (ready.removeConfig _).1.exists? _ = true ↔ _
      rw [exists?_removeConfig (writeText_wellFormed hw hwrite) hname, hready]
    | ok run =>
      obtain ⟨invocation, finished⟩ := run
      obtain ⟨-, -, -, hfinished⟩ := of_launch hlaunch
      rw [hlaunch] at hlawful hput
      have hevent : Event.launched invocation ready.tree ∈
          (endTrace { ready with tree := finished.tree } (root.join ⟨Layout.checkConfigFile⟩)
            [.launched invocation ready.tree] (finished.outcome command.display)).events := by
        simp [endTrace]
      show (removeConfig { ready with tree := finished.tree } _).1.exists? _ = true ↔ _
      have hleft := hlawful _ _ _ hevent hfinished (writeText_wellFormed hw hwrite)
      rw [exists?_removeConfig hleft hname]
      -- the compiler ran in between, and put no directory where there was none
      have hafter := hput _ _ _ hevent hfinished
      rw [← hcwd] at hafter
      constructor
      · intro h
        rw [hafter h] at hready
        exact nomatch hready
      · intro h
        exact nomatch h

/-- A project where a link to nothing stands at the path of the configuration file. -/
def linkedProject : World :=
  ⟨.ofEntries [(["p"], .directory), (["p", "tsconfig-check.json"], .link ⟨"old.json"⟩)], .inside []⟩

/-- A compiler that is killed before it does anything. -/
def killedToolchain : Toolchain := fun _ t => .ok ⟨[], [], .signal, t⟩

/-- The file is written through the link, and then it is the link that is taken out. -/
theorem exists_config_after_trace_linked :
    linkedProject.tree.WellFormed ∧
      (linkedProject.trace killedToolchain ⟨"/p"⟩ .standard ["a.ts"]).world.exists?
        ⟨"/p/tsconfig-check.json"⟩ = false := by
  have hw : linkedProject.tree.WellFormed := by decide
  have hleft := exists_config_after_trace linkedProject killedToolchain ⟨"/p"⟩ .standard ["a.ts"] hw
    (fun _ _ _ _ hrun ht => by cases hrun; exact ht) (fun _ _ _ _ hrun h => by cases hrun; exact h)
  have hjoin : (Path.mk "/p").join ⟨Layout.checkConfigFile⟩ = ⟨"/p/tsconfig-check.json"⟩ := by decide
  rw [hjoin] at hleft
  refine ⟨hw, Bool.eq_false_iff.2 fun h => ?_⟩
  rcases hleft.1 h with ⟨hfiles, -⟩ | hdir
  · exact nomatch hfiles
  · exact absurd hdir (by decide)

end World

end TypeLeak
