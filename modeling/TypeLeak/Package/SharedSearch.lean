import TypeLeak.Package.Root

/-! # Searching for package roots side by side

Several searches for package roots run at the same time and share one cache.  Nothing keeps them
apart: each reads what is known about a directory, looks at the directory if nothing is known, and
makes known what it found, and between any two of these steps the other searches may take steps of
their own.  A *schedule* says which search takes the next step.

* `put_of_unknown`    an answer about a new directory is stored
* `searches_stepAt`   a step of one search leaves the others where they are
-/

namespace TypeLeak

namespace ManifestCache

/-- The cache with an answer put in.  It takes the place of an answer for the same directory, which
    keeps the spelling that it was first known under. -/
def put (c : ManifestCache) (dir : Path) (found : Bool) : ManifestCache :=
  if (c.lookup dir).isSome then
    ⟨c.entries.map fun e => if e.1.isSame (.ofPath dir) then (e.1, found) else e⟩
  else c.store dir found

/-- An answer about a new directory is stored. -/
theorem put_of_unknown {c : ManifestCache} {dir : Path} (h : c.lookup dir = none) (found : Bool) :
    c.put dir found = c.store dir found := by
  simp [put, h]

end ManifestCache

/-- Where a search for the root of a package stands. -/
inductive RootSearch where
  /-- it is about to read what is known about `dir` -/
  | asking (dir : Path) (left : List Path)
  /-- nothing was known about `dir`, so it is about to look there -/
  | looking (dir : Path) (left : List Path)
  /-- it has looked at `dir` and is about to make known what it found -/
  | storing (dir : Path) (found : Bool) (left : List Path)
  | done (root : Option Path)
  deriving Repr, DecidableEq

namespace RootSearch

/-- A search that has these candidates left. -/
def among : List Path → RootSearch
  | [] => .done none
  | dir :: left => .asking dir left

/-- A search for the root of the package that a directory belongs to. -/
def start (dir : Path) : RootSearch := among (World.packageCandidates dir)

/-- A search that has got its answer about `dir`. -/
def answered (dir : Path) (found : Bool) (left : List Path) : RootSearch :=
  if found then .done (some dir) else among left

/-- The next step of a search, and the cache after it. -/
def step (w : World) (cache : ManifestCache) : RootSearch → RootSearch × ManifestCache
  | .asking dir left =>
    match cache.lookup dir with
    | some found => (answered dir found left, cache)
    | none => (.looking dir left, cache)
  | .looking dir left => (.storing dir (w.holdsManifest dir) left, cache)
  -- another search may have stored it meanwhile, and this answer takes its place
  | .storing dir found left => (answered dir found left, cache.put dir found)
  | .done root => (.done root, cache)

end RootSearch

/-- Searches that share a cache. -/
structure SharedSearches where
  searches : List RootSearch
  cache : ManifestCache

namespace SharedSearches

/-- Searches for the roots of the packages that directories belong to. -/
def start (cache : ManifestCache) (dirs : List Path) : SharedSearches :=
  ⟨dirs.map RootSearch.start, cache⟩

/-- The next step of the search with a number. -/
def stepAt (w : World) (s : SharedSearches) (i : Nat) : SharedSearches :=
  match s.searches[i]? with
  | none => s
  | some search =>
    let (search, cache) := search.step w s.cache
    ⟨s.searches.set i search, cache⟩

/-- The searches after the steps of a schedule. -/
def run (w : World) (s : SharedSearches) (schedule : List Nat) : SharedSearches :=
  schedule.foldl (stepAt w) s

variable {w : World} {s : SharedSearches}

/-- What a step does to the search it is a step of, and to the cache. -/
theorem stepAt_of_some {i : Nat} {search : RootSearch} (h : s.searches[i]? = some search) :
    s.stepAt w i = ⟨s.searches.set i (search.step w s.cache).1, (search.step w s.cache).2⟩ := by
  simp [stepAt, h]

/-- A number that no search has takes no step. -/
theorem stepAt_of_none {i : Nat} (h : s.searches[i]? = none) : s.stepAt w i = s := by
  simp [stepAt, h]

@[simp] theorem run_nil : s.run w [] = s := rfl

@[simp] theorem run_cons (i : Nat) (schedule : List Nat) :
    s.run w (i :: schedule) = (s.stepAt w i).run w schedule := rfl

/-- One schedule after the other. -/
theorem run_append (first second : List Nat) :
    s.run w (first ++ second) = (s.run w first).run w second := List.foldl_append

/-- A step of one search leaves the others where they are. -/
theorem searches_stepAt (i j : Nat) :
    (s.stepAt w i).searches[j]? =
      if i = j then s.searches[j]?.map fun search => (search.step w s.cache).1
      else s.searches[j]? := by
  -- the list changes at one place only, if it has that place
  cases hi : s.searches[i]? with
  | none =>
    rw [stepAt_of_none hi]
    split
    · rename_i heq
      rw [← heq, hi]
      rfl
    · rfl
  | some search =>
    rw [stepAt_of_some hi, List.getElem?_set]
    split
    · rename_i heq
      have hlt := (List.getElem?_eq_some_iff.1 hi).1
      rw [← heq, hi, if_pos hlt]
      rfl
    · rfl

end SharedSearches

end TypeLeak
