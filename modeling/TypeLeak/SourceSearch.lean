import TypeLeak.Layout
import TypeLeak.FileTree.World

/-! # Searching a directory for TypeScript sources

The search goes through a directory name by name, and through each subdirectory at the place of
its name, so the findings are ordered by the bytes of their names.  Links are followed.  Three kinds
of links are reported as broken instead: one that leads nowhere, and one that leads to a directory
that is on the way from the root to the link itself or is locked.  Hidden names are left out, and so
are directories that the filter skips.  A link that cannot be followed is reported whatever its name
is.

Each entry is looked up by the path that was walked to it.  A subdirectory whose path the
operating system refuses, or which is locked, is reported as broken too, and a file whose path it
refuses is left out.

What a name is decided by, and what a source is listed as, is the lossy form of the names: two
sources whose names are not UTF-8 can be listed alike.

The search ends because every link taken leads to a directory that is not yet on the way, and
between links it only goes down.
-/

namespace TypeLeak

/-- Which names a search leaves out. -/
structure SearchFilter where
  skipDirs : List String
  deriving Repr, DecidableEq

namespace SearchFilter

/-- Leaves out installed packages and build output. -/
def standard : SearchFilter := ⟨Layout.skippedDirectories⟩

/-- A name is left out: every hidden one, and directories on the list. -/
def skips (f : SearchFilter) (name : String) (isDir : Bool) : Bool :=
  -- only a directory is left out for its name
  name.toList.head? == some '.' || (isDir && f.skipDirs.contains name)

end SearchFilter

/-- What a search comes upon, by the names from its root. -/
inductive Finding where
  | source (names : List OsText)
  | broken (names : List OsText)
  deriving Repr, DecidableEq

namespace Finding

/-- What a source is listed as: its path from the search's root, as far as that can be shown. -/
def source? : Finding → Option String
  | source names => some ("/".intercalate (names.map OsText.lossy))
  | broken _ => none

/-- A finding is an entry that the search could not go into. -/
def isBroken : Finding → Bool
  | source _ => false
  | broken _ => true

end Finding

namespace FileTree

/-- How many directories are not on the way. -/
def unvisited (t : FileTree) (trail : List Location) : Nat :=
  t.directories.countP (· ∉ trail)

/-- A further directory on the way leaves no more of them off it. -/
theorem unvisited_cons_le (t : FileTree) (loc : Location) (trail : List Location) :
    t.unvisited (loc :: trail) ≤ t.unvisited trail :=
  List.countP_mono_left fun x _ hx => by simp_all

/-- A new directory on the way leaves fewer of them off it. -/
theorem unvisited_cons_lt (t : FileTree) {loc : Location} {trail : List Location}
    (hdir : loc ∈ t.directories) (hnew : loc ∉ trail) :
    t.unvisited (loc :: trail) < t.unvisited trail := by
  unfold unvisited
  generalize t.directories = dirs at hdir
  -- the new directory is counted once before and not after
  induction dirs with
  | nil => simp at hdir
  | cons d ds ih =>
    have hle : ds.countP (· ∉ loc :: trail) ≤ ds.countP (· ∉ trail) :=
      List.countP_mono_left fun x _ hx => by simp_all
    by_cases hd : d = loc
    · subst hd
      rw [List.countP_cons_of_neg (by simp), List.countP_cons_of_pos (by simpa using hnew)]
      omega
    · have hmem : loc ∈ ds := by
        rcases List.mem_cons.1 hdir with h | h
        · exact absurd h.symm hd
        · exact h
      have hlt := ih hmem
      by_cases hold : d ∈ trail
      · rw [List.countP_cons_of_neg (by simp [hold]), List.countP_cons_of_neg (by simp [hold])]
        exact hlt
      · rw [List.countP_cons_of_pos (by simp [hold, hd]), List.countP_cons_of_pos (by simp [hold])]
        omega

/-- Every directory of the tree is listed. -/
theorem mem_directories {t : FileTree} {loc : Location}
    (h : t.get? loc = some .directory) : loc ∈ t.directories := by
  unfold get? at h
  -- the root is a directory that is no entry
  split at h
  · simp [directories, *]
  · simp only [directories, List.mem_cons, List.mem_map, List.mem_filter]
    right
    have := List.lookup_eq_some_iff.1 h
    obtain ⟨l₁, l₂, heq, -⟩ := this
    exact ⟨(loc, .directory), ⟨by simp [heq], by simp⟩, rfl⟩

/-- The greatest of numbers is no less than any of them. -/
private theorem le_foldl_max (xs : List Nat) (start : Nat) :
    start ≤ xs.foldl max start ∧ ∀ x ∈ xs, x ≤ xs.foldl max start := by
  induction xs generalizing start with
  | nil => simp
  | cons x xs ih =>
    have := ih (max start x)
    simp only [List.foldl_cons, List.mem_cons]
    refine ⟨by omega, ?_⟩
    rintro y (rfl | hy)
    · omega
    · exact this.2 y hy

/-- No entry lies deeper than the height of the tree. -/
theorem length_le_height {t : FileTree} {loc : Location} {e : Entry} (h : t.get? loc = some e)
    (hloc : loc ≠ []) : loc.length ≤ t.height := by
  unfold get? at h
  simp only [hloc, if_false] at h
  obtain ⟨l₁, l₂, heq, -⟩ := List.lookup_eq_some_iff.1 h
  unfold height
  refine (le_foldl_max _ 0).2 _ ?_
  simp [heq]

end FileTree

namespace World

/-- What is found in a directory and below.  `trail` holds the directories on the way to `dir`
    and `dir` itself, `path` is the path of `dir` that was walked, and `names` are the names on it
    after the root. -/
def findingsIn (w : World) (filter : SearchFilter) (trail : List Location) (dir : Location)
    (path : Path) (names : List OsText) : List Finding :=
  (w.tree.names dir).flatMap fun name =>
    match _hentry : w.tree.get? (dir ++ [name]) with
    | none => []
    -- a directory is entered by its own name, unless it is left out or cannot be
    | some .directory =>
      if filter.skips name.lossy true then []
      else if !w.exists? (path.join ⟨name⟩) || !w.tree.isReadable (dir ++ [name]) then
        [.broken (names ++ [name])]
      else
        w.findingsIn filter ((dir ++ [name]) :: trail) (dir ++ [name]) (path.join ⟨name⟩)
          (names ++ [name])
    | some (.file ..) =>
      if filter.skips name.lossy false || !Layout.isSource name.lossy ||
          !w.isFile (path.join ⟨name⟩) then
        []
      else [.source (names ++ [name])]
    -- a link is followed first, so that it is reported as broken even if it would be left out
    | some (.link _) =>
      match _htarget : w.tree.resolve w.cwd (path.join ⟨name⟩) with
      | .ok (.present loc .directory) =>
        -- a directory that is on the way already would be walked for ever
        if loc ∈ trail ∨ ¬ w.tree.isReadable loc then [.broken (names ++ [name])]
        else if filter.skips name.lossy true then []
        else w.findingsIn filter (loc :: trail) loc (path.join ⟨name⟩) (names ++ [name])
      | .ok (.present _ (.file ..)) =>
        if filter.skips name.lossy false || !Layout.isSource name.lossy then []
        else [.source (names ++ [name])]
      | _ => [.broken (names ++ [name])]
termination_by (w.tree.unvisited trail, w.tree.height - dir.length)
decreasing_by
  · have hlen := FileTree.length_le_height ‹w.tree.get? (dir ++ [name]) = some .directory› (by simp)
    have hle := w.tree.unvisited_cons_le (dir ++ [name]) trail
    simp only [List.length_append, List.length_singleton] at hlen ⊢
    rcases Nat.lt_or_eq_of_le hle with h | h
    · exact Prod.Lex.left _ _ h
    · rw [h]; exact Prod.Lex.right _ (by omega)
  · exact Prod.Lex.left _ _
      (w.tree.unvisited_cons_lt (FileTree.mem_directories (FileTree.get?_of_resolve _htarget))
        fun h => ‹¬ (loc ∈ trail ∨ _)› (.inl h))

/-- What a search from `root` comes upon.  A root that is a file is its own only candidate, a
    root that is locked is reported, and the root `-`, which stands for the standard input, holds
    nothing; nor does a directory that has been removed. -/
def findings (w : World) (root : Path) (filter : SearchFilter) : List Finding :=
  if root.isSame ⟨.ofString "-"⟩ then []
  else
    match w.resolve root with
    | .ok (.present loc .directory) =>
      if w.tree.isReadable loc then w.findingsIn filter [loc] loc root [] else [.broken []]
    | .ok (.present _ (.file ..)) => if Layout.isSource root.lossy then [.source []] else []
    | .ok .removed => []
    | _ => [.broken []]

/-- What the sources that a search finds are listed as. -/
def sources (w : World) (root : Path) (filter : SearchFilter) : List String :=
  (w.findings root filter).filterMap Finding.source?

end World

end TypeLeak
