import Mathlib.Data.List.Find
import TypeLeak.Proofs.PathSpelling

/-!
# What a cache learns while the file system changes

A search for the root of a package asks about one directory after the other, upwards, and stops at
the first that holds a manifest.  What a cache knows about a directory counts, even when it has
become wrong; what it does not know is looked up at that moment and kept.  Where searches take turns,
a cache therefore only grows, and by exactly the directories that were asked about and not known.

## Key results

- `firstSeen_eq`: what a search finds, and what the cache learns from it
- `entries_prefix_after`: nothing that is known is forgotten or changed
- `after_grows`: both at any moment of any sequence of searches
-/

namespace TypeLeak

/-! ## Up to the first -/

/-- The items up to and including the first one that satisfies a condition. -/
def upToFirst {α : Type} (p : α → Bool) (xs : List α) : List α :=
  xs.takeWhile (!p ·) ++ (xs.find? p).toList

section UpToFirst

variable {α : Type} {p p' : α → Bool}

/-- The first item is taken, and those behind it if it does not satisfy the condition. -/
theorem upToFirst_cons (x : α) (xs : List α) :
    upToFirst p (x :: xs) = x :: if p x then [] else upToFirst p xs := by
  unfold upToFirst
  cases h : p x <;> simp [h]

/-- Only the items themselves have to satisfy both conditions alike. -/
theorem upToFirst_congr {xs : List α} (h : ∀ x ∈ xs, p x = p' x) :
    upToFirst p xs = upToFirst p' xs := by
  induction xs with
  | nil => rfl
  | cons x xs ih =>
    rw [upToFirst_cons, upToFirst_cons, h x (by simp), ih fun y hy => h y (by simp [hy])]

/-- What is taken is taken in order. -/
theorem upToFirst_sublist (p : α → Bool) (xs : List α) : (upToFirst p xs).Sublist xs := by
  induction xs with
  | nil => exact List.Sublist.slnil
  | cons x xs ih =>
    rw [upToFirst_cons]
    split
    · exact (List.nil_sublist xs).cons_cons x
    · exact ih.cons_cons x

end UpToFirst

/-! ## One search -/

namespace ManifestCache

variable {c c' : ManifestCache} {q : Path}

/-- Answers behind others count only where those know nothing. -/
theorem lookup_append (more : List (Path.Indexed × Bool)) :
    lookup ⟨c.entries ++ more⟩ q = (c.lookup q).or (lookup ⟨more⟩ q) := by
  simp only [lookup, List.find?_append, Option.map_or]

/-- More answers do not change what is known. -/
theorem lookup_of_prefix (h : c.entries <+: c'.entries) {found : Bool}
    (hfound : c.lookup q = some found) : c'.lookup q = some found := by
  obtain ⟨more, hmore⟩ := h
  have hc' : c' = ⟨c.entries ++ more⟩ := by rw [hmore]
  rw [hc', lookup_append, hfound, Option.some_or]

/-- Of answers about different directories, each is known. -/
theorem lookup_map {dirs : List Path} (hdirs : dirs.Pairwise fun a b => a.isSame b = false)
    (holds : Path → Bool) (hq : q ∈ dirs) :
    lookup ⟨dirs.map fun dir => (.ofPath dir, holds dir)⟩ q = some (holds q) := by
  induction dirs with
  | nil => exact absurd hq List.not_mem_nil
  | cons dir dirs ih =>
    obtain ⟨hdir, hrest⟩ := List.pairwise_cons.1 hdirs
    have hkey : (Path.Indexed.ofPath dir).isSame (.ofPath q) = dir.isSame q :=
      Path.Indexed.isSame_eq _ _
    -- the first answer is about the directory or about another one
    rcases List.mem_cons.1 hq with rfl | hq
    · simp [lookup, hkey]
    · have hih := ih hrest hq
      simp only [lookup, List.map_cons, List.find?_cons, hkey, hdir q hq] at hih ⊢
      exact hih

/-- What is known about a directory, or else what is seen there. -/
def answer (c : ManifestCache) (seen : Path → World) (q : Path) : Bool :=
  (c.lookup q).getD ((seen q).holdsManifest q)

end ManifestCache

namespace World

variable {seen : Path → World}

/-- The first directory that holds a manifest, where the file system may be another one each time
that a directory is looked at. -/
def firstSeen (seen : Path → World) : ManifestCache → List Path → Option Path × ManifestCache
  | cache, [] => (none, cache)
  | cache, dir :: dirs =>
    match (seen dir).hasManifest cache dir with
    | (true, cache) => (some dir, cache)
    | (false, cache) => firstSeen seen cache dirs

/-- Without changes this is the search in one file system. -/
theorem firstSeen_const (w : World) (cache : ManifestCache) (dirs : List Path) :
    firstSeen (fun _ => w) cache dirs = w.firstWithManifest cache dirs := by
  induction dirs generalizing cache with
  | nil => rfl
  | cons dir dirs ih =>
    rw [firstSeen, firstWithManifest]
    -- both look-ups come to the same, and go on with the same cache
    cases w.hasManifest cache dir with
    | mk found cache =>
      cases found with
      | true => rfl
      | false => exact ih cache

/-- What a search finds, and what the cache learns from it. -/
theorem firstSeen_eq {dirs : List Path} (hdirs : dirs.Pairwise fun a b => a.isSame b = false)
    (cache : ManifestCache) :
    firstSeen seen cache dirs =
      (dirs.find? (cache.answer seen),
        ⟨cache.entries ++ ((upToFirst (cache.answer seen) dirs).filter fun q =>
          (cache.lookup q).isNone).map fun q => (.ofPath q, (seen q).holdsManifest q)⟩) := by
  induction dirs generalizing cache with
  | nil => simp [firstSeen, upToFirst]
  | cons dir dirs ih =>
    obtain ⟨hdir, hrest⟩ := List.pairwise_cons.1 hdirs
    rw [firstSeen, upToFirst_cons, List.find?_cons]
    cases hlookup : cache.lookup dir with
    | some found =>
      -- nothing is learnt, whether the search stops here or goes on
      have hanswer : cache.answer seen dir = found := by simp [ManifestCache.answer, hlookup]
      rw [hasManifest_of_lookup _ hlookup, hanswer]
      cases found with
      | true => simp [hlookup]
      | false => simp [ih hrest cache, hlookup]
    | none =>
      -- the answer is what is seen now, and the rest of the search starts from a longer cache
      have hanswer : cache.answer seen dir = (seen dir).holdsManifest dir := by
        simp [ManifestCache.answer, hlookup]
      rw [hasManifest_of_unknown _ hlookup, hanswer]
      cases hfound : (seen dir).holdsManifest dir with
      | true => simp [hlookup, hfound, ManifestCache.store]
      | false =>
        -- what is learnt about this directory says nothing about those behind it
        have hlookups : ∀ q ∈ dirs, (cache.store dir false).lookup q = cache.lookup q := by
          intro q hq
          rw [ManifestCache.lookup_store, hdir q hq]
          simp
        have hanswers : ∀ q ∈ dirs,
            (cache.store dir false).answer seen q = cache.answer seen q := by
          intro q hq
          rw [ManifestCache.answer, hlookups q hq, ManifestCache.answer]
        have hfind : dirs.find? ((cache.store dir false).answer seen) =
            dirs.find? (cache.answer seen) := List.find?_congr hanswers
        have hnew : (upToFirst (cache.answer seen) dirs).filter (fun q =>
              ((cache.store dir false).lookup q).isNone) =
            (upToFirst (cache.answer seen) dirs).filter fun q => (cache.lookup q).isNone :=
          List.filter_congr fun q hq => by
            rw [hlookups q ((upToFirst_sublist _ _).subset hq)]
        dsimp only
        rw [ih hrest, hfind, upToFirst_congr hanswers, hnew]
        simp [hlookup, hfound, ManifestCache.store]

end World

/-- A search for the root of a package while the file system changes. -/
structure RootLookUp where
  dir : Path
  /-- the file system at the moment when a directory is looked at -/
  seen : Path → World

/-- What a search finds, and the cache after it. -/
def RootLookUp.run (l : RootLookUp) (cache : ManifestCache) : Option Path × ManifestCache :=
  World.firstSeen l.seen cache (World.packageCandidates l.dir)

/-- Without changes this is how the root of a package is found. -/
theorem RootLookUp.run_const (w : World) (dir : Path) (cache : ManifestCache) :
    run ⟨dir, fun _ => w⟩ cache = w.packageRoot cache dir :=
  World.firstSeen_const w cache _

/-- A path with a parent is neither the root nor the empty path. -/
theorem Path.not_isSame_top {p : Path} (h : p.parent.isSome = true) :
    p.isSame ⟨"/"⟩ = false ∧ p.isSame ⟨""⟩ = false := by
  have htop : (Path.mk "/").components = [.root] ∧ (Path.mk "").components = [] := by decide
  have hnone : ¬ (p.components = [] ∨ p.components = [.root]) := by
    rw [← Path.parent_eq_none_iff]
    exact Option.isSome_iff_ne_none.1 h
  rw [not_or] at hnone
  simp [Path.isSame, htop, hnone]

namespace World

/-- No two candidates are the same directory. -/
theorem packageCandidates_pairwise (dir : Path) :
    (packageCandidates dir).Pairwise fun a b => a.isSame b = false := by
  have hsub : (packageCandidates dir).Sublist dir.ancestors := List.takeWhile_sublist _
  refine (dir.ancestors_pairwise.sublist hsub).imp fun {a b} hlt => ?_
  rw [Bool.eq_false_iff, Ne, Path.isSame_iff]
  intro heq
  rw [heq] at hlt
  exact Nat.lt_irrefl _ hlt

end World

namespace ManifestCache

/-- What a search finds, and what the cache learns from it. -/
theorem run_eq (l : RootLookUp) (c : ManifestCache) :
    let asked := upToFirst (c.answer l.seen) (World.packageCandidates l.dir)
    l.run c =
      ((World.packageCandidates l.dir).find? (c.answer l.seen),
        ⟨c.entries ++ (asked.filter fun q => (c.lookup q).isNone).map fun q =>
          (.ofPath q, (l.seen q).holdsManifest q)⟩) :=
  World.firstSeen_eq (World.packageCandidates_pairwise l.dir) c

/-- A search leaves what is known as it is. -/
theorem entries_prefix_run (l : RootLookUp) (c : ManifestCache) :
    c.entries <+: (l.run c).2.entries := by
  rw [run_eq]
  exact List.prefix_append _ _

/-- Every directory that a search has asked about is known after it. -/
theorem lookup_run {l : RootLookUp} {c : ManifestCache} {q : Path}
    (hq : q ∈ upToFirst (c.answer l.seen) (World.packageCandidates l.dir)) :
    (l.run c).2.lookup q = some (c.answer l.seen q) := by
  cases hlookup : c.lookup q with
  | some found =>
    rw [answer, hlookup]
    exact lookup_of_prefix (entries_prefix_run l c) hlookup
  | none =>
    -- it is one of the directories that the cache has learnt about, which are all different
    have hasked := (World.packageCandidates_pairwise l.dir).sublist
      (upToFirst_sublist (c.answer l.seen) (World.packageCandidates l.dir))
    have hnew := lookup_map (hasked.filter fun q => (c.lookup q).isNone)
      (fun q => (l.seen q).holdsManifest q) (List.mem_filter.2 ⟨hq, by rw [hlookup]; rfl⟩)
    rw [run_eq, lookup_append, hlookup, Option.none_or, hnew, answer, hlookup]
    rfl

/-! ## A sequence of searches -/

/-- The cache after searches, one after the other. -/
def after (c : ManifestCache) (searches : List RootLookUp) : ManifestCache :=
  searches.foldl (fun c l => (l.run c).2) c

/-- Searches after others start from the cache that those leave. -/
theorem after_append (c : ManifestCache) (first second : List RootLookUp) :
    c.after (first ++ second) = (c.after first).after second := List.foldl_append

/-- Nothing that is known is forgotten. -/
theorem entries_prefix_after (c : ManifestCache) (searches : List RootLookUp) :
    c.entries <+: (c.after searches).entries := by
  induction searches generalizing c with
  | nil => exact List.prefix_rfl
  | cons l searches ih => exact (entries_prefix_run l c).trans (ih _)

/-- **A cache only grows, and only by what is asked and not known.**  At any moment of a sequence of
searches, while the file system changes in any way, a search asks about the ancestors that have a
parent, which the root and the empty path have not, up to the first one that is known to hold a
manifest or, if nothing is known, is seen to hold one.  It finds that one, as it is spelled, and the
cache learns what was seen in those of which nothing was known.  What is known then stays known. -/
theorem after_grows (c : ManifestCache) (earlier later : List RootLookUp) (l : RootLookUp) :
    let before := c.after earlier
    let reached := c.after (earlier ++ l :: later)
    let answer := fun q => (before.lookup q).getD ((l.seen q).holdsManifest q)
    let candidates := l.dir.ancestors.filter (·.parent.isSome)
    let asked := upToFirst answer candidates
    let unknown := asked.filter fun q => (before.lookup q).isNone
    (∀ w, l.seen = (fun _ => w) → l.run before = w.packageRoot before l.dir) ∧
      l.run before =
        (candidates.find? answer,
          ⟨before.entries ++ unknown.map fun q => (.ofPath q, (l.seen q).holdsManifest q)⟩) ∧
      (∀ q ∈ candidates, q.isSame ⟨"/"⟩ = false ∧ q.isSame ⟨""⟩ = false) ∧
      before.entries <+: reached.entries ∧
      (∀ q found, before.lookup q = some found → reached.lookup q = some found) ∧
      ∀ q ∈ asked, reached.lookup q = some (answer q) := by
  intro before reached answer candidates asked unknown
  -- the candidates are the ancestors up to the first one without a parent, which is the last
  have hcandidates : candidates = World.packageCandidates l.dir :=
    (World.packageCandidates_eq l.dir).symm
  have hreached : reached = (l.run before).2.after later := after_append c earlier (l :: later)
  -- what the search learns is known in the end, like everything before it
  have hlater : (l.run before).2.entries <+: reached.entries := by
    rw [hreached]
    exact entries_prefix_after _ later
  have hprefix : before.entries <+: reached.entries := (entries_prefix_run l before).trans hlater
  refine ⟨?_, ?_, ?_, hprefix, fun q found => lookup_of_prefix hprefix, fun q hq => ?_⟩
  · -- the same file system at every look is one file system
    intro w hw
    rw [← RootLookUp.run_const, ← hw]
  · rw [run_eq, ← hcandidates]
    rfl
  · -- a candidate has a parent, so it is not the root
    intro q hq
    exact Path.not_isSame_top (List.mem_filter.1 hq).2
  · have hasked : q ∈ upToFirst (before.answer l.seen) (World.packageCandidates l.dir) :=
      hcandidates ▸ hq
    exact lookup_of_prefix hlater (lookup_run hasked)

/-- A package with its manifest. -/
def packageBefore : World :=
  .inside (.ofEntries [(["p"], .directory), (["p", "package.json"], .file [] false),
    (["p", "lib"], .directory)]) []

/-- The package after its manifest has moved into a directory further down. -/
def packageAfter : World :=
  .inside
    (.ofEntries [(["p"], .directory), (["p", "lib"], .directory),
      (["p", "lib", "package.json"], .file [] false)]) []

/-- Two answers have become wrong when a search under another spelling asks for them.  They count,
and they stay. -/
theorem after_grows_outdated :
    let earlier : List RootLookUp := [⟨⟨"/p/lib"⟩, fun _ => packageBefore⟩]
    let l : RootLookUp := ⟨⟨"/p//lib/x"⟩, fun _ => packageAfter⟩
    let before := empty.after earlier
    let reached := empty.after (earlier ++ [l])
    ((⟨"/p//lib"⟩ : Path) ∈ l.dir.ancestors.filter (·.parent.isSome) ∧
        before.lookup ⟨"/p/./lib"⟩ = some false ∧
        ⟨"/p//lib/x"⟩ ∈ upToFirst (before.answer l.seen) (World.packageCandidates l.dir)) ∧
      (packageAfter.packageRoot before l.dir).1 = some ⟨"/p"⟩ ∧
      (packageAfter.packageRoot before l.dir).2.entries.map (fun e => (e.1.path, e.2)) =
        [(⟨"/p/lib"⟩, false), (⟨"/p"⟩, true), (⟨"/p//lib/x"⟩, false)] ∧
      (Path.mk "/p//lib").isSame ⟨"/"⟩ = false ∧
      reached.lookup ⟨"/p/./lib"⟩ = some false ∧ reached.lookup ⟨"/p//lib/x"⟩ = some false ∧
      packageAfter.holdsManifest ⟨"/p/./lib"⟩ = true := by
  intro earlier l before reached
  have hcandidate : (⟨"/p//lib"⟩ : Path) ∈ l.dir.ancestors.filter (·.parent.isSome) := by
    decide +kernel
  -- the first search has asked about the directory under its own spelling
  have hknown : before.lookup ⟨"/p/./lib"⟩ = some false := by decide +kernel
  have hasked : ⟨"/p//lib/x"⟩ ∈
      upToFirst (before.answer l.seen) (World.packageCandidates l.dir) := by decide +kernel
  obtain ⟨hconst, hrun, htop, -, hkept, hlearnt⟩ := after_grows empty earlier [] l
  refine ⟨⟨hcandidate, hknown, hasked⟩, ?_, ?_, (htop _ hcandidate).1, hkept _ _ hknown, ?_, ?_⟩
  · rw [← hconst packageAfter rfl, hrun]
    decide +kernel
  · rw [← hconst packageAfter rfl, hrun]
    decide +kernel
  · -- the directory is asked about for the first time, and is found empty
    rw [World.packageCandidates_eq] at hasked
    exact (hlearnt _ hasked).trans (by decide +kernel)
  · decide +kernel

end ManifestCache

end TypeLeak
