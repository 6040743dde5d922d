import TypeLeak.Layout
import TypeLeak.FileTree.World

/-! # The package that a directory belongs to

The root of a package is the nearest directory, from a given one upwards, that holds a manifest.
The root of the file system is never looked at.  What is learnt about a directory on the way is
kept in a cache, so that later searches need not look again; the cache tells directories apart by
their components, not by their spelling.

* `lookup_store`             what a cache knows after it has learnt something
* `hasManifest_of_lookup`    what is known counts
* `hasManifest_of_unknown`   what is not known is looked up and kept
* `packageRoots_congr_of_mem`  only where there are manifests matters
-/

namespace TypeLeak

/-- What is known about directories: whether they hold a manifest. -/
structure ManifestCache where
  entries : List (Path.Indexed × Bool)

namespace ManifestCache

/-- Nothing is known. -/
def empty : ManifestCache := ⟨[]⟩

/-- What is known about a directory under any of its spellings. -/
def lookup (c : ManifestCache) (dir : Path) : Option Bool :=
  let key := Path.Indexed.ofPath dir
  (c.entries.find? fun e => e.1.isSame key).map Prod.snd

/-- The cache with one more answer.  An answer for the same directory stays in force. -/
def store (c : ManifestCache) (dir : Path) (found : Bool) : ManifestCache :=
  ⟨c.entries ++ [(.ofPath dir, found)]⟩

/-- What was known stays known, and else it is the answer stored that is known now. -/
theorem lookup_store (c : ManifestCache) (dir : Path) (found : Bool) (q : Path) :
    (c.store dir found).lookup q =
      (c.lookup q).or (if dir.isSame q then some found else none) := by
  have hsame : (Path.Indexed.ofPath dir).isSame (.ofPath q) = dir.isSame q :=
    Path.Indexed.isSame_eq _ _
  simp only [lookup, store, List.find?_append, List.find?_singleton, hsame]
  cases c.entries.find? fun e => e.1.isSame (.ofPath q) with
  | some e => simp
  | none => cases dir.isSame q <;> simp

end ManifestCache

namespace World

/-- A directory holds a manifest. -/
def holdsManifest (w : World) (dir : Path) : Bool := w.isFile (dir.join ⟨Layout.manifestFile⟩)

/-- Whether a directory holds a manifest, by what is known or else by looking. -/
def hasManifest (w : World) (cache : ManifestCache) (dir : Path) : Bool × ManifestCache :=
  match cache.lookup dir with
  | some found => (found, cache)
  | none => (w.holdsManifest dir, cache.store dir (w.holdsManifest dir))

/-- The first directory that holds a manifest. -/
def firstWithManifest (w : World) : ManifestCache → List Path → Option Path × ManifestCache
  | cache, [] => (none, cache)
  | cache, dir :: dirs =>
    match w.hasManifest cache dir with
    | (true, cache) => (some dir, cache)
    | (false, cache) => w.firstWithManifest cache dirs

/-- The directories that can be the root of a package that `dir` belongs to. -/
def packageCandidates (dir : Path) : List Path := dir.ancestors.takeWhile (·.parent.isSome)

/-- The root of the package that a directory belongs to. -/
def packageRoot (w : World) (cache : ManifestCache) (dir : Path) :
    Option Path × ManifestCache :=
  w.firstWithManifest cache (packageCandidates dir)

/-- The roots of the packages that directories belong to, found with one cache. -/
def packageRoots (w : World) : ManifestCache → List Path → List (Option Path) × ManifestCache
  | cache, [] => ([], cache)
  | cache, dir :: dirs =>
    let (root, cache) := w.packageRoot cache dir
    let (roots, cache) := w.packageRoots cache dirs
    (root :: roots, cache)

/-- What is known counts. -/
theorem hasManifest_of_lookup (w : World) {cache : ManifestCache} {dir : Path} {found : Bool}
    (h : cache.lookup dir = some found) : w.hasManifest cache dir = (found, cache) := by
  simp [hasManifest, h]

/-- What is not known is looked up and kept. -/
theorem hasManifest_of_unknown (w : World) {cache : ManifestCache} {dir : Path}
    (h : cache.lookup dir = none) :
    w.hasManifest cache dir = (w.holdsManifest dir, cache.store dir (w.holdsManifest dir)) := by
  simp [hasManifest, h]

variable {w w' : World}

/-- The first directory with a manifest depends on where the manifests are. -/
theorem firstWithManifest_congr {dirs : List Path}
    (h : ∀ dir ∈ dirs, w'.holdsManifest dir = w.holdsManifest dir) (cache : ManifestCache) :
    w'.firstWithManifest cache dirs = w.firstWithManifest cache dirs := by
  induction dirs generalizing cache with
  | nil => rfl
  | cons dir dirs ih =>
    -- the answer about a directory is the same, known or looked up
    have hask : w'.hasManifest cache dir = w.hasManifest cache dir := by
      unfold hasManifest
      rw [h dir (List.mem_cons_self ..)]
    simp only [firstWithManifest, hask, ih fun q hq => h q (List.mem_cons_of_mem _ hq)]

/-- The roots of packages depend only on where there are manifests among the candidates. -/
theorem packageRoots_congr_of_mem {dirs : List Path}
    (h : ∀ dir ∈ dirs, ∀ q ∈ packageCandidates dir, w'.holdsManifest q = w.holdsManifest q)
    (cache : ManifestCache) : w'.packageRoots cache dirs = w.packageRoots cache dirs := by
  induction dirs generalizing cache with
  | nil => rfl
  | cons dir dirs ih =>
    have hfirst := firstWithManifest_congr (h dir (List.mem_cons_self ..))
    simp only [packageRoots, packageRoot, hfirst, ih fun q hq => h q (List.mem_cons_of_mem _ hq)]

end World

end TypeLeak
