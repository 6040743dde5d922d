import TypeLeak.Proofs.CompilerLaunch

/-!
# Where a project is

The root of a project that is given by a path is replaced by its canonical path, or left as it was
given if it has none.  It has none if it leads nowhere, and also if it is out of reach: relative to
a current directory that has been removed, or led through what is too deep to be named.  Locating a
project that has been located changes nothing, and a root through which a manifest can be read is
canonical unless it was given by a path out of reach.

## Key results

- `canonical_of_canonical`: a canonical path has no other canonical path
- `resolve_canonical`: it leads to what it was found for
- `locate_canonical`: what locating a project makes of its root
- `canonical_out_of_reach`: which roots are left as they were given
-/

namespace TypeLeak

namespace Path

/-- A path is no longer than one that a name is joined to. -/
theorem isTooLong_of_join {p : Path} {name : OsText} (hname : IsName name)
    (h : (p.join ⟨name⟩).isTooLong = false) : p.isTooLong = false := by
  -- joining a name only makes the text longer
  have hsize : p.text.size ≤ (p.join ⟨name⟩).text.size := by
    by_cases hp : p.text = .empty
    · rw [hp]
      exact Nat.zero_le _
    · obtain ⟨front, hjoin, hfront⟩ := join_text hp hname
      rw [hjoin]
      simp only [OsText.size_append]
      rcases hfront with hfront | hfront
      · rw [hfront]
        omega
      · rw [hfront, OsText.size_append]
        omega
  unfold isTooLong at h ⊢
  simp only [decide_eq_false_iff_not] at h ⊢
  omega

end Path

namespace World

variable {w : World}

/-- A path is the one that the names from the root down to an entry spell, each of them with one
    slash before it.  None of these names is empty or dots, and none is that of a link. -/
structure IsCanonical (w : World) (p : Path) (loc : Location) : Prop where
  absolute : p.isAbsolute = true
  spelled : p.text = .slash ++ .ofSegments loc
  named : ∀ name ∈ loc, name ≠ "" ∧ name ≠ "." ∧ name ≠ ".." ∧ OsText.slashByte ∉ name.bytes
  linkFree : ∀ front target, front <+: loc → w.tree.get? front ≠ some (.link target)

/-- The path of an entry that is no link is canonical. -/
theorem isCanonical_path (hw : w.tree.WellFormed) {loc : Location} {e : Entry}
    (hget : w.tree.get? loc = some e) (hentry : ∀ target, e ≠ .link target) :
    w.IsCanonical loc.path loc where
  absolute := Location.isAbsolute_path (hw.isProper_of_get? hget)
  spelled := rfl
  named := hw.isProper_of_get? hget
  linkFree := fun _ target hfront => hw.get?_ne_link hget hentry hfront target

/-- A canonical path has no other canonical path. -/
theorem canonical_of_canonical (hw : w.tree.WellFormed) (hstored : w.tree.Storable) {p q q' : Path}
    (h : w.canonical p = .ok q) (h' : w.canonical q = .ok q') : q' = q := by
  obtain ⟨loc, e, hfound, -, rfl⟩ := canonical_eq_ok_iff.1 h
  obtain ⟨loc', e', hfound', -, rfl⟩ := canonical_eq_ok_iff.1 h'
  rw [lookUp_path hw hstored (get?_of_lookUp hfound) (entry_ne_link hfound)] at hfound'
  cases hfound'
  rfl

/-- What is made of a root that is given. -/
def locatedRoot (w : World) (r : Path) : Path := (w.canonical r).toOption.getD r

/-- A root with a canonical path is replaced by it. -/
theorem locatedRoot_of_ok {r q : Path} (h : w.canonical r = .ok q) : w.locatedRoot r = q := by
  unfold locatedRoot
  rw [h]
  rfl

/-- Any other root is left as it was given. -/
theorem locatedRoot_of_error {r : Path} {cause : OsError} (h : w.canonical r = .error cause) :
    w.locatedRoot r = r := by
  unfold locatedRoot
  rw [h]
  rfl

/-- It is enough that no path is the canonical one. -/
theorem locatedRoot_of_forall_ne {r : Path} (h : ∀ q, w.canonical r ≠ .ok q) :
    w.locatedRoot r = r := by
  cases hcanonical : w.canonical r with
  | error cause => exact locatedRoot_of_error hcanonical
  | ok q => exact absurd hcanonical (h q)

/-- It stays as it is from then on. -/
theorem locatedRoot_locatedRoot (hw : w.tree.WellFormed) (hstored : w.tree.Storable) (r : Path) :
    w.locatedRoot (w.locatedRoot r) = w.locatedRoot r := by
  cases hcanonical : w.canonical r with
  | error cause =>
    rw [locatedRoot_of_error hcanonical, locatedRoot_of_error hcanonical]
  | ok q =>
    rw [locatedRoot_of_ok hcanonical]
    -- the canonical path of a canonical path is that path, unless it is too long to have one
    cases hagain : w.canonical q with
    | ok q' => rw [locatedRoot_of_ok hagain, canonical_of_canonical hw hstored hcanonical hagain]
    | error cause => exact locatedRoot_of_error hagain

/-- A canonical path that is not too long leads to what the path led to that it was found for. -/
theorem resolve_canonical (hw : w.tree.WellFormed) (hstored : w.tree.Storable) {p : Path}
    {loc : Location} {e : Entry} (hfound : w.tree.lookUp .reading w.cwd p = .ok (.present loc e))
    (hfits : loc.path.isTooLong = false) : w.resolve loc.path = .ok (.present loc e) := by
  unfold resolve FileTree.resolve FileTree.resolveFor
  rw [hfits, if_neg (by simp)]
  exact lookUp_path hw hstored (get?_of_lookUp hfound) (entry_ne_link hfound)

/-! ## Locating a project -/

/-- A project with a root that is given is located there. -/
theorem locate_of_root {o : Options} {r : Path} (h : o.root = some r) :
    o.locate w = .ok { o with root := some (w.locatedRoot r) } := by
  unfold Options.locate
  rw [h]
  rfl

/-- The root of a located project is the one that is given, or the current directory. -/
theorem of_locate {o ready : Options} (h : o.locate w = .ok ready) :
    ∃ root, ready = { o with root := some root } ∧
      ((∃ r, o.root = some r ∧ root = w.locatedRoot r) ∨
        o.root = none ∧ w.currentDirectory = .ok root) := by
  -- without a root that is given it is the current directory, if that can be told
  cases hroot : o.root with
  | some r =>
    rw [locate_of_root hroot] at h
    cases h
    exact ⟨_, rfl, .inl ⟨r, rfl, rfl⟩⟩
  | none =>
    unfold Options.locate at h
    rw [hroot] at h
    cases hcurrent : w.currentDirectory with
    | error cause => simp [hcurrent] at h
    | ok dir =>
      rw [hcurrent] at h
      cases h
      exact ⟨dir, rfl, .inr ⟨rfl, rfl⟩⟩

/-- The current directory is canonical. -/
theorem of_currentDirectory {dir : Path} (h : w.currentDirectory = .ok dir) :
    dir = w.cwd.dir.path ∧ w.tree.get? w.cwd.dir = some .directory := by
  unfold currentDirectory at h
  split at h
  · rename_i hcwd
    simp only [Bool.and_eq_true, decide_eq_true_eq] at hcwd
    exact ⟨(Except.ok.inj h).symm, FileTree.isDirectory_iff.1 hcwd.2⟩
  · exact nomatch h

/-- Locating a project again changes nothing. -/
theorem locate_locate (hw : w.tree.WellFormed) (hstored : w.tree.Storable) {o ready : Options}
    (h : o.locate w = .ok ready) : ready.locate w = .ok ready := by
  obtain ⟨root, rfl, hroot⟩ := of_locate h
  rw [locate_of_root rfl]
  -- neither kind of root changes a second time
  have hstays : w.locatedRoot root = root := by
    rcases hroot with ⟨r, -, rfl⟩ | ⟨-, hcurrent⟩
    · exact locatedRoot_locatedRoot hw hstored r
    · obtain ⟨rfl, hget⟩ := of_currentDirectory hcurrent
      cases hcanonical : w.canonical w.cwd.dir.path with
      | ok q =>
        obtain ⟨loc, e, hfound, -, rfl⟩ := canonical_eq_ok_iff.1 hcanonical
        rw [lookUp_path hw hstored hget fun _ => nofun] at hfound
        cases hfound
        exact locatedRoot_of_ok hcanonical
      | error cause => exact locatedRoot_of_error hcanonical
  rw [hstays]

/-- A file that can be read is there. -/
theorem exists_resolve_of_readText {p : Path} {text : String} (h : w.readText p = .ok text) :
    ∃ found, w.resolve p = .ok found := by
  cases hfound : w.resolve p with
  | ok found => exact ⟨found, rfl⟩
  | error cause =>
    unfold readText readBytes at h
    rw [hfound] at h
    exact nomatch h

/-- A root through which a file is read is canonical, unless it was given by a path out of reach. -/
theorem isCanonical_of_read (hw : w.tree.WellFormed) (hstored : w.tree.Storable)
    {o ready : Options} {root : Path} (h : o.locate w = .ok ready)
    (hroot : ready.knownRoot = .ok root) (hne : root.text ≠ .empty) {name : OsText} {text : String}
    (hname : Path.IsName name) (hread : w.readText (root.join ⟨name⟩) = .ok text)
    (hreach : ∀ r, o.root = some r → w.WithinReach r) :
    ∃ loc, w.IsCanonical root loc ∧ w.resolve root = .ok (.present loc .directory) ∧
      w.canonical root = .ok root := by
  obtain ⟨found, hfound⟩ := exists_resolve_of_readText hread
  obtain ⟨hfits, -, links, dir, hleads, -⟩ := (resolve_join hname).1 hfound
  have hfits := Path.isTooLong_of_join hname hfits
  -- the root reaches the directory of the file, and is spelled by its path
  obtain ⟨rfl, -⟩ := root_eq_path hw h hroot hne hleads hreach
  have hdir : w.tree.isDirectory dir = true := by
    obtain ⟨-, hbegin, rest, -, hleads⟩ := hleads
    exact hw.isDirectory_of_leads hleads hbegin
  have hget := FileTree.isDirectory_iff.1 hdir
  refine ⟨dir, isCanonical_path hw hget fun _ => nofun, ?_, ?_⟩
  · exact resolve_eq_directory_iff.2 ⟨hne, hfits, ⟨links, hleads⟩, hdir⟩
  · exact canonical_path hw hstored hget (fun _ => nofun) hfits

/-- A root that is given is replaced by the canonical path of what it leads to, which leads there
    too; if it leads nowhere or is out of reach, it is left as it was given.  Locating a project once
    more changes nothing.  A root that is not empty and through which the manifest can be read is the
    canonical path of a directory, unless it was given by a path out of reach. -/
theorem locate_canonical (w : World) (hw : w.tree.WellFormed) (hstored : w.tree.Storable)
    (o : Options) :
    (∀ r, o.root = some r → ∃ root, o.locate w = .ok { o with root := some root } ∧
      (∀ loc e, w.tree.lookUp .reading w.cwd r = .ok (.present loc e) → w.WithinReach r →
        w.IsCanonical root loc ∧ w.tree.lookUp .reading w.cwd root = .ok (.present loc e) ∧
          (r.isAbsolute = true ∨ w.cwd.dir.path.isTooLong = false →
            w.resolve root = .ok (.present loc e))) ∧
      ((∀ loc e, w.tree.lookUp .reading w.cwd r ≠ .ok (.present loc e)) ∨ ¬ w.WithinReach r →
        root = r)) ∧
    ∀ ready, o.locate w = .ok ready →
      ready.locate w = .ok ready ∧
      ∃ root, ready.knownRoot = .ok root ∧
        ∀ text, root.text ≠ .empty → w.readText (root.join ⟨Layout.manifestFile⟩) = .ok text →
          (∀ r, o.root = some r → w.WithinReach r) →
          ∃ loc, w.IsCanonical root loc ∧ w.resolve root = .ok (.present loc .directory) ∧
            w.canonical root = .ok root := by
  refine ⟨fun r hr => ⟨_, locate_of_root hr, fun loc e hfound hreach => ?_, fun hleft => ?_⟩,
    fun ready hready => ⟨locate_locate hw hstored hready, ?_⟩⟩
  · -- the root has a canonical path, which takes its place
    have hcanonical := canonical_eq_ok_iff.2 ⟨loc, e, hfound, hreach, rfl⟩
    have hget := get?_of_lookUp hfound
    have hentry := entry_ne_link hfound
    rw [locatedRoot_of_ok hcanonical]
    refine ⟨isCanonical_path hw hget hentry, lookUp_path hw hstored hget hentry, fun hcwd => ?_⟩
    exact resolve_canonical hw hstored hfound (fits_of_lookUp hfound hreach hcwd)
  · -- no path is its canonical one, since that would lead somewhere within reach
    refine locatedRoot_of_forall_ne fun q hq => ?_
    obtain ⟨loc, e, hfound, hreach, -⟩ := canonical_eq_ok_iff.1 hq
    rcases hleft with hnowhere | hfar
    · exact hnowhere loc e hfound
    · exact hfar hreach
  · obtain ⟨root, rfl, -⟩ := of_locate hready
    refine ⟨root, rfl, fun text hne hread hreach => ?_⟩
    exact isCanonical_of_read hw hstored hready rfl hne (by decide) hread hreach

/-- A project with two links that lead to it, seen from inside. -/
def windingProject : World :=
  .inside (.ofEntries [(["p"], .directory),
    (["p", "package.json"], .file (Text.Utf8.encode "\x7b\x7d") false),
    (["a"], .link ⟨"b/."⟩), (["b"], .link ⟨"/p//"⟩)]) ["p"]

/-- Its root, given by way of a link, is found by its own path, and its manifest is read through
    it. -/
theorem locate_canonical_winding :
    let o : Options := ⟨[], some ⟨"../a/"⟩, "tsc"⟩
    let ready : Options := ⟨[], some ⟨"/p"⟩, "tsc"⟩
    ((windingProject.tree.WellFormed ∧ windingProject.tree.Storable) ∧
        windingProject.tree.lookUp .reading windingProject.cwd ⟨"../a/"⟩ =
          .ok (.present ["p"] .directory) ∧
        windingProject.WithinReach ⟨"../a/"⟩ ∧
        windingProject.readText (Path.join ⟨"/p"⟩ ⟨Layout.manifestFile⟩) = .ok "\x7b\x7d") ∧
      o.locate windingProject = .ok ready ∧
      windingProject.IsCanonical ⟨"/p"⟩ ["p"] ∧
      windingProject.resolve ⟨"/p"⟩ = .ok (.present ["p"] .directory) ∧
      ready.locate windingProject = .ok ready ∧
      windingProject.canonical ⟨"/p"⟩ = .ok ⟨"/p"⟩ := by
  intro o ready
  have hw : windingProject.tree.WellFormed := by decide
  have hstored : windingProject.tree.Storable := by decide
  have hleads : windingProject.tree.lookUp .reading windingProject.cwd ⟨"../a/"⟩ =
      .ok (.present ["p"] .directory) := by decide +kernel
  have hreach : windingProject.WithinReach ⟨"../a/"⟩ := by decide +kernel
  have hread : windingProject.readText (Path.join ⟨"/p"⟩ ⟨Layout.manifestFile⟩) =
      .ok "\x7b\x7d" := by decide +kernel
  have hready : o.locate windingProject = .ok ready := by decide +kernel
  obtain ⟨hgiven, hagain⟩ := locate_canonical windingProject hw hstored o
  obtain ⟨root, hroot, hfound, -⟩ := hgiven _ rfl
  -- what the theorem says of some root it says of the one that is located
  obtain rfl : root = ⟨"/p"⟩ := by
    rw [hready] at hroot
    exact (Option.some.inj (congrArg Options.root (Except.ok.inj hroot))).symm
  obtain ⟨hcanonical, -, hresolve⟩ := hfound ["p"] .directory hleads hreach
  obtain ⟨hstays, root, hknown, hmanifest⟩ := hagain ready hready
  cases hknown
  obtain ⟨-, -, -, hself⟩ := hmanifest _ (by decide) hread fun r hr => by
    cases hr
    exact hreach
  exact ⟨⟨⟨hw, hstored⟩, hleads, hreach, hread⟩, hready, hcanonical, hresolve (.inr (by decide)),
    hstays, hself⟩

/-! ## Roots out of reach -/

/-- Where the innermost of directories is that lie one inside the other. -/
def innermost (depth : Nat) : Location := List.replicate depth (.ofString "a")

/-- One more directory is inside those before. -/
theorem innermost_succ (depth : Nat) : innermost (depth + 1) = innermost depth ++ [.ofString "a"] :=
  List.replicate_succ'

/-- Directories one inside the other, as many as there are. -/
def nested : Nat → List (Location × Entry)
  | 0 => []
  | depth + 1 => (innermost (depth + 1), .directory) :: nested depth

/-- Each of the directories is there. -/
theorem isDirectory_nested {depth k : Nat} (h : k ≤ depth) :
    (FileTree.ofEntries (nested depth)).isDirectory (innermost k) = true := by
  cases k with
  | zero => exact FileTree.isDirectory_nil
  | succ k =>
    rw [FileTree.isDirectory_iff, FileTree.get?, if_neg (by simp [innermost])]
    show (nested depth).lookup (innermost (k + 1)) = some .directory
    -- the innermost one is the first entry, and the others are behind it
    induction depth with
    | zero => omega
    | succ depth ih =>
      rw [nested, List.lookup_cons]
      by_cases hk : k = depth
      · simp [hk]
      · have hne : (innermost (k + 1) == innermost (depth + 1)) = false := by
          rw [beq_eq_false_iff_ne]
          intro heq
          have hlength := congrArg List.length heq
          simp only [innermost, List.length_replicate] at hlength
          omega
        rw [hne]
        exact ih (by omega)

/-- And nothing else. -/
theorem exists_of_mem_nested {depth : Nat} {e : Location × Entry} (h : e ∈ nested depth) :
    ∃ k < depth, e = (innermost (k + 1), .directory) := by
  induction depth with
  | zero => exact nomatch h
  | succ depth ih =>
    rcases List.mem_cons.1 h with rfl | h
    · exact ⟨depth, Nat.lt_succ_self depth, rfl⟩
    · obtain ⟨k, hk, rfl⟩ := ih h
      exact ⟨k, Nat.lt_succ_of_lt hk, rfl⟩

/-- They make a file tree whose names are as short as can be. -/
theorem nested_wellFormed (depth : Nat) :
    (FileTree.ofEntries (nested depth)).WellFormed ∧
      (FileTree.ofEntries (nested depth)).Storable := by
  have hname : Path.IsName "a" ∧ (OsText.ofString "a").size ≤ maxName ∧
      (Path.mk "a").holdsNul = false := by
    decide
  refine ⟨FileTree.wellFormed_iff.2 fun e he => ?_, fun e he name hmem => ?_⟩
  · -- each stands in the one before it
    obtain ⟨k, hk, rfl⟩ := exists_of_mem_nested he
    refine ⟨fun name hmem => ?_, ?_⟩
    · rw [List.eq_of_mem_replicate hmem]
      exact hname.1
    · rw [innermost_succ, List.dropLast_concat]
      exact isDirectory_nested (Nat.le_of_lt hk)
  · obtain ⟨k, -, rfl⟩ := exists_of_mem_nested he
    rw [List.eq_of_mem_replicate hmem]
    exact hname.2

/-- How long the path of the innermost one is. -/
theorem size_path_innermost (depth : Nat) :
    (innermost (depth + 1)).path.text.size = 2 * (depth + 1) := by
  have hname : (OsText.ofString "a").size = 1 := by decide
  -- one byte for each name and one for each slash between two of them
  have hnames : (OsText.ofSegments (innermost (depth + 1))).size = 2 * depth + 1 := by
    induction depth with
    | zero => decide
    | succ depth ih =>
      have hcons : innermost (depth + 1 + 1) =
          .ofString "a" :: .ofString "a" :: innermost depth := rfl
      have hrest : OsText.ofString "a" :: innermost depth = innermost (depth + 1) := rfl
      rw [hcons, OsText.ofSegments_cons_cons, hrest, OsText.size_append, OsText.size_append, ih,
        OsText.size_slash, hname]
      omega
  rw [Location.path, OsText.size_append, hnames, OsText.size_slash]
  omega

/-- Directories that lead so deep that the last of them is too deep to be named, seen from the one
    before it. -/
def deepDirectories : World := .inside (.ofEntries (nested 2048)) (innermost 2047)

/-- The name of the last one leads there, but it has no canonical path. -/
theorem deepDirectories_resolve :
    deepDirectories.resolve ⟨"a"⟩ = .ok (.present (innermost 2048) .directory) ∧
      deepDirectories.locatedRoot ⟨"a"⟩ = ⟨"a"⟩ := by
  have hname : Path.IsName "a" := by decide
  have hlast : innermost 2047 ++ [.ofString "a"] = innermost 2048 := (innermost_succ 2047).symm
  have hdir := isDirectory_nested (Nat.le_refl 2048)
  constructor
  · rw [deepDirectories, resolve_inside hname (by decide) (by decide)
      (isDirectory_nested (by decide)), FileTree.walk_enter, if_neg (by simp), if_neg (by decide),
      hlast, FileTree.isDirectory_iff.1 hdir]
    dsimp only
    rw [FileTree.walk_nil, if_pos hdir]
  · refine locatedRoot_of_forall_ne fun q hq => ?_
    obtain ⟨-, -, -, ⟨-, hprobes⟩, -⟩ := canonical_eq_ok_iff.1 hq
    -- the name is probed by the path of the directory
    unfold probed at hprobes
    rw [Path.isAbsolute_name hname, Path.steps_name hname] at hprobes
    have hfits : (Location.path (innermost 2047 ++ [.ofString "a"])).isTooLong = false :=
      FileTree.ProbesFit.path hprobes
    rw [hlast, Path.isTooLong, size_path_innermost 2047] at hfits
    exact nomatch hfits

/-- A root is left as it was given although it leads to a directory: seen from a directory that has
    been removed, where even the manifest can be read through it, or because it leads too deep. -/
theorem canonical_out_of_reach :
    (lostProject.tree.WellFormed ∧
      lostProject.resolve ⟨".."⟩ = .ok (.present ["p"] .directory) ∧
      lostProject.readText (Path.join ⟨".."⟩ ⟨Layout.manifestFile⟩) = .ok "\x7b\x7d" ∧
      Options.locate ⟨[], some ⟨".."⟩, "tsc"⟩ lostProject = .ok ⟨[], some ⟨".."⟩, "tsc"⟩ ∧
      (Path.mk "..").isAbsolute = false) ∧
    deepDirectories.tree.WellFormed ∧ deepDirectories.tree.Storable ∧
      deepDirectories.resolve ⟨"a"⟩ = .ok (.present (innermost 2048) .directory) ∧
      Options.locate ⟨[], some ⟨"a"⟩, "tsc"⟩ deepDirectories = .ok ⟨[], some ⟨"a"⟩, "tsc"⟩ ∧
      (Path.mk "a").isAbsolute = false := by
  refine ⟨⟨by decide, by decide +kernel, by decide +kernel, ?_, by decide⟩,
    (nested_wellFormed 2048).1, (nested_wellFormed 2048).2, deepDirectories_resolve.1, ?_, by decide⟩
  · -- a removed directory has no path, so nothing relative to it has one
    have hleft : lostProject.locatedRoot ⟨".."⟩ = ⟨".."⟩ := by decide +kernel
    rw [locate_of_root rfl, hleft]
  · rw [locate_of_root rfl, deepDirectories_resolve.2]

end World

end TypeLeak
