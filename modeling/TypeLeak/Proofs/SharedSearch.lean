import TypeLeak.Package.SharedSearch
import TypeLeak.Proofs.PathSpelling

/-!
# Searches that share a cache agree with searches on their own

A cache is *true* to a file system if each of its answers is what the file system says about the
directory.  Every step of every search keeps a shared cache true, and no step changes the root that
a search is going to find.  So the searches find what they would find alone, in whatever order they
take their steps, and each of them ends after a number of steps of its own.

Answers are known for the components of a path and looked up by its spelling, so this holds as long
as no spelling is too long for the operating system.

## Key results

- `run_alone`, `packageRoots_eq_run`: one search after the other is one of the schedules
- `Sound.stepAt`, `Sound.run`: what a step, and hence a run, preserves
- `searches_agree`: in every run the cache stays true and the searches find the nearest manifests
-/

namespace TypeLeak

namespace ManifestCache

/-- Every answer is about one of these spellings and is what the file system says about it. -/
def TrueOn (w : World) (spellings : List Path) (c : ManifestCache) : Prop :=
  ∀ e ∈ c.entries, e.1.path ∈ spellings ∧ e.2 = w.holdsManifest e.1.path

variable {w : World} {spellings : List Path} {c : ManifestCache}

/-- What a true cache knows is true of every spelling of a directory that is no longer than the
    operating system takes exactly if the others are. -/
theorem TrueOn.eq_of_lookup (h : c.TrueOn w spellings) {dir : Path}
    (hdir : ∀ p ∈ spellings, p.isSame dir = true → (p.Fits ↔ dir.Fits)) {found : Bool}
    (hfound : c.lookup dir = some found) : found = w.holdsManifest dir := by
  obtain ⟨e, he, rfl⟩ := Option.map_eq_some_iff.1 hfound
  -- the answer is stored under another spelling of the directory
  have hsame : e.1.path.isSame dir = true := by
    have hkey := List.find?_some he
    rwa [Path.Indexed.isSame_eq] at hkey
  obtain ⟨hmem, htrue⟩ := h e (List.mem_of_find?_eq_some he)
  rw [htrue]
  exact World.holdsManifest_of_isSame hsame (hdir _ hmem hsame)

/-- A true answer that is put in leaves the cache true. -/
theorem TrueOn.put (h : c.TrueOn w spellings) (heven : Path.Even spellings) {dir : Path}
    (hdir : dir ∈ spellings) : (c.put dir (w.holdsManifest dir)).TrueOn w spellings := by
  intro e he
  unfold ManifestCache.put at he
  split at he
  · -- an answer that is replaced is one for another spelling of the directory
    obtain ⟨old, hold, rfl⟩ := List.mem_map.1 he
    obtain ⟨hmem, htrue⟩ := h old hold
    split
    · rename_i hsame
      rw [Path.Indexed.isSame_eq] at hsame
      have hfits := heven _ hmem _ hdir hsame
      exact ⟨hmem, (World.holdsManifest_of_isSame hsame hfits).symm⟩
    · exact ⟨hmem, htrue⟩
  · rcases List.mem_append.1 he with hold | hnew
    · exact h e hold
    · rw [List.mem_singleton.1 hnew]
      exact ⟨hdir, rfl⟩

end ManifestCache

/-! ## One search -/

namespace RootSearch

/-- The root that a search is going to find, by what the file system says. -/
def outcome (w : World) : RootSearch → Option Path
  | .asking dir left => (dir :: left).find? w.holdsManifest
  | .looking dir left => (dir :: left).find? w.holdsManifest
  | .storing dir _ left => (dir :: left).find? w.holdsManifest
  | .done root => root

/-- The candidates that a search has left. -/
def candidates : RootSearch → List Path
  | .asking dir left => dir :: left
  | .looking dir left => dir :: left
  | .storing dir _ left => dir :: left
  | .done _ => []

/-- Every candidate is one of these spellings, and what is going to be stored is true. -/
structure Sound (w : World) (spellings : List Path) (search : RootSearch) : Prop where
  mem : ∀ dir ∈ search.candidates, dir ∈ spellings
  found : ∀ dir found left, search = .storing dir found left → found = w.holdsManifest dir

/-- How many steps of its own a search has left at most. -/
def stepsLeft : RootSearch → Nat
  | .asking _ left => 3 * left.length + 3
  | .looking _ left => 3 * left.length + 2
  | .storing _ _ left => 3 * left.length + 1
  | .done _ => 0

variable {w : World} {spellings : List Path} {cache : ManifestCache} {search : RootSearch}

/-- A search among directories has them for its candidates. -/
theorem candidates_among (dirs : List Path) : (among dirs).candidates = dirs := by
  cases dirs <;> rfl

/-- It is going to find the first of them that holds a manifest. -/
theorem outcome_among (dirs : List Path) : (among dirs).outcome w = dirs.find? w.holdsManifest := by
  cases dirs <;> rfl

/-- It takes three steps for each of them at most. -/
theorem stepsLeft_among (dirs : List Path) : (among dirs).stepsLeft = 3 * dirs.length := by
  cases dirs <;> simp [among, stepsLeft, Nat.mul_add]

/-- It is sound if all of them are among the spellings. -/
theorem sound_among {dirs : List Path} (h : ∀ dir ∈ dirs, dir ∈ spellings) :
    (among dirs).Sound w spellings where
  mem := by rwa [candidates_among]
  found := by cases dirs <;> exact nofun

/-- A search with nothing left to do has found its root. -/
theorem eq_done (h : search.stepsLeft = 0) : search = .done (search.outcome w) := by
  cases search with
  | done root => rfl
  | asking dir left => simp [stepsLeft] at h
  | looking dir left => simp [stepsLeft] at h
  | storing dir found left => simp [stepsLeft] at h

/-- A search that gets a true answer goes on soundly to the root that it was going to find. -/
theorem answered_sound {dir : Path} {left : List Path} (h : ∀ q ∈ dir :: left, q ∈ spellings) :
    (answered dir (w.holdsManifest dir) left).Sound w spellings ∧
      (answered dir (w.holdsManifest dir) left).outcome w = (dir :: left).find? w.holdsManifest := by
  rw [List.find?_cons]
  unfold answered
  cases w.holdsManifest dir with
  | true => exact ⟨⟨by simp [candidates], nofun⟩, rfl⟩
  | false => exact ⟨sound_among fun q hq => h q (by simp [hq]), outcome_among left⟩

/-- A step keeps the cache true and the search sound, and does not change what it is going to
    find. -/
theorem step_sound (heven : Path.Even spellings) (hcache : cache.TrueOn w spellings)
    (h : search.Sound w spellings) :
    (search.step w cache).2.TrueOn w spellings ∧ (search.step w cache).1.Sound w spellings ∧
      (search.step w cache).1.outcome w = search.outcome w := by
  obtain ⟨hmem, hfound⟩ := h
  -- asking, looking and storing: only the last one changes the cache
  cases search with
  | asking dir left =>
    have hdir : dir ∈ spellings := hmem dir (by simp [candidates])
    rw [step]
    cases hlookup : cache.lookup dir with
    | some found =>
      rw [hcache.eq_of_lookup (fun p hp => heven p hp dir hdir) hlookup]
      exact ⟨hcache, answered_sound hmem⟩
    | none => exact ⟨hcache, ⟨hmem, fun _ _ _ h => by cases h⟩, rfl⟩
  | looking dir left =>
    refine ⟨hcache, ⟨hmem, fun dir' found left' heq => ?_⟩, rfl⟩
    cases heq
    rfl
  | storing dir found left =>
    have hdir : dir ∈ spellings := hmem dir (by simp [candidates])
    rw [hfound dir found left rfl]
    exact ⟨hcache.put heven hdir, answered_sound hmem⟩
  | done root => exact ⟨hcache, ⟨hmem, hfound⟩, rfl⟩

/-- Every step brings a search nearer to its end. -/
theorem stepsLeft_step : (search.step w cache).1.stepsLeft ≤ search.stepsLeft - 1 := by
  -- an answer ends the search, or leaves one candidate less
  have hanswered : ∀ dir found left, (answered dir found left).stepsLeft ≤ 3 * left.length := by
    intro dir found left
    unfold answered
    split
    · exact Nat.zero_le _
    · rw [stepsLeft_among]
  cases search with
  | asking dir left =>
    rw [step]
    cases cache.lookup dir with
    | some found =>
      exact (hanswered dir found left).trans (Nat.le_add_right _ _)
    | none => exact Nat.le_refl _
  | looking dir left => exact Nat.le_refl _
  | storing dir found left => exact hanswered dir found left
  | done root => exact Nat.le_refl _

end RootSearch

/-! ## Searches side by side -/

namespace SharedSearches

variable {w : World} {s : SharedSearches} {roots : List (Option Path)}

/-- The cache is true, and the searches are sound and going to find these roots. -/
structure Sound (w : World) (spellings : List Path) (roots : List (Option Path))
    (s : SharedSearches) : Prop where
  cache : s.cache.TrueOn w spellings
  searches : ∀ (i : Nat) (search : RootSearch), s.searches[i]? = some search →
    search.Sound w spellings ∧ roots[i]? = some (search.outcome w)

/-- The spellings of directories that searches come across. -/
def spellings (cache : ManifestCache) (dirs : List Path) : List Path :=
  cache.entries.map (·.1.path) ++ dirs.flatMap World.packageCandidates

/-- Searches are sound when they start with a true cache. -/
theorem sound_start {cache : ManifestCache}
    (hcache : ∀ e ∈ cache.entries, e.2 = w.holdsManifest e.1.path) (dirs : List Path) :
    (start cache dirs).Sound w (spellings cache dirs) (dirs.map fun dir =>
      (World.packageCandidates dir).find? w.holdsManifest) := by
  refine ⟨fun e he => ⟨?_, hcache e he⟩, fun i search hsearch => ?_⟩
  · exact List.mem_append_left _ (List.mem_map_of_mem he)
  · -- each search starts with all of its candidates, which are among the spellings
    have hmap : dirs[i]?.map RootSearch.start = some search := by
      rwa [← List.getElem?_map]
    obtain ⟨dir, hdir, rfl⟩ := Option.map_eq_some_iff.1 hmap
    refine ⟨RootSearch.sound_among fun q hq => ?_, ?_⟩
    · exact List.mem_append_right _ (List.mem_flatMap.2 ⟨dir, List.mem_of_getElem? hdir, hq⟩)
    · rw [List.getElem?_map, hdir, RootSearch.start, RootSearch.outcome_among]
      rfl

/-- One step of one search preserves this. -/
theorem Sound.stepAt {known : List Path} (heven : Path.Even known) (h : s.Sound w known roots)
    (i : Nat) : (s.stepAt w i).Sound w known roots := by
  cases hi : s.searches[i]? with
  | none => rwa [stepAt_of_none hi]
  | some search =>
    obtain ⟨hsearch, hroot⟩ := h.searches i search hi
    obtain ⟨hcache, hsound, houtcome⟩ := RootSearch.step_sound heven h.cache hsearch
    refine ⟨by rwa [stepAt_of_some hi], fun j other hother => ?_⟩
    -- only one search has changed, and that one goes on to the root that it was going to find
    rw [searches_stepAt] at hother
    split at hother
    · rename_i heq
      subst heq
      rw [hi, Option.map_some, Option.some.injEq] at hother
      rw [← hother, houtcome]
      exact ⟨hsound, hroot⟩
    · exact h.searches j other hother

/-- So does a run. -/
theorem Sound.run {known : List Path} (heven : Path.Even known) (h : s.Sound w known roots)
    (schedule : List Nat) : (s.run w schedule).Sound w known roots := by
  induction schedule generalizing s with
  | nil => exact h
  | cons i schedule ih => exact ih (h.stepAt heven i)

/-- A search has done as many of its steps as the schedule gave it. -/
theorem stepsLeft_run {i : Nat} {search : RootSearch} (h : s.searches[i]? = some search)
    (schedule : List Nat) :
    ∃ later, (s.run w schedule).searches[i]? = some later ∧
      later.stepsLeft ≤ search.stepsLeft - schedule.count i := by
  induction schedule generalizing s search with
  | nil => exact ⟨search, h, Nat.le_refl _⟩
  | cons j schedule ih =>
    have hstep := searches_stepAt (w := w) (s := s) j i
    rw [h, Option.map_some] at hstep
    -- steps of others leave this search as it is
    by_cases hji : j = i
    · rw [if_pos hji] at hstep
      obtain ⟨later, hlater, hleft⟩ := ih hstep
      have hnearer : (search.step w s.cache).1.stepsLeft ≤ search.stepsLeft - 1 :=
        RootSearch.stepsLeft_step
      refine ⟨later, hlater, ?_⟩
      rw [List.count_cons, hji]
      simp only [beq_self_eq_true, if_true]
      omega
    · rw [if_neg hji] at hstep
      obtain ⟨later, hlater, hleft⟩ := ih hstep
      refine ⟨later, hlater, ?_⟩
      rw [List.count_cons]
      simp only [beq_iff_eq, hji, if_false]
      exact hleft

/-! ## One search after the other -/

/-- Putting a search back where it stands changes nothing. -/
private theorem set_eq_self {i : Nat} {search : RootSearch} (h : s.searches[i]? = some search) :
    s.searches.set i search = s.searches := by
  obtain ⟨hlt, rfl⟩ := List.getElem?_eq_some_iff.1 h
  exact List.set_getElem_self hlt

/-- A search that takes its steps without others in between gets its answer as a look-up does. -/
private theorem run_asking {i : Nat} {dir : Path} {left : List Path}
    (h : s.searches[i]? = some (.asking dir left)) :
    ∃ steps, s.run w (List.replicate steps i) =
      ⟨s.searches.set i (.answered dir (w.hasManifest s.cache dir).1 left),
        (w.hasManifest s.cache dir).2⟩ := by
  have hlt : i < s.searches.length := (List.getElem?_eq_some_iff.1 h).1
  have hstep : ∀ search cache, stepAt w ⟨s.searches.set i search, cache⟩ i =
      ⟨s.searches.set i (search.step w cache).1, (search.step w cache).2⟩ := fun search cache => by
    rw [stepAt_of_some (List.getElem?_set_self hlt), List.set_set]
  cases hlookup : s.cache.lookup dir with
  | some found =>
    refine ⟨1, ?_⟩
    rw [World.hasManifest_of_lookup w hlookup, List.replicate_one, run_cons, run_nil,
      stepAt_of_some h]
    simp only [RootSearch.step, hlookup]
  | none =>
    -- one step to ask, one to look and one to store
    refine ⟨3, ?_⟩
    rw [World.hasManifest_of_unknown w hlookup, ← ManifestCache.put_of_unknown hlookup]
    simp only [List.replicate_succ, List.replicate_zero, run_cons, run_nil, stepAt_of_some h,
      hstep, RootSearch.step, hlookup]

/-- So it finds what a search alone finds, and leaves the same cache behind. -/
theorem run_alone {i : Nat} {dirs : List Path} (h : s.searches[i]? = some (.among dirs)) :
    ∃ steps, s.run w (List.replicate steps i) =
      ⟨s.searches.set i (.done (w.firstWithManifest s.cache dirs).1),
        (w.firstWithManifest s.cache dirs).2⟩ := by
  induction dirs generalizing s with
  | nil =>
    have hdone : s.searches.set i (.done none) = s.searches := set_eq_self h
    exact ⟨0, by rw [World.firstWithManifest, hdone]; rfl⟩
  | cons dir dirs ih =>
    have hlt : i < s.searches.length := (List.getElem?_eq_some_iff.1 h).1
    obtain ⟨steps, hsteps⟩ := run_asking (w := w) h
    rw [World.firstWithManifest]
    cases hfound : w.hasManifest s.cache dir with
    | mk found cache =>
      rw [hfound] at hsteps
      cases found with
      | true => exact ⟨steps, hsteps⟩
      | false =>
        -- it goes on with the candidates left
        obtain ⟨more, hmore⟩ := ih (s := ⟨s.searches.set i (.among dirs), cache⟩)
          (List.getElem?_set_self hlt)
        refine ⟨steps + more, ?_⟩
        rw [List.replicate_add, run_append, hsteps]
        rw [List.set_set] at hmore
        exact hmore

/-- The searches that are done stand before those that are still to start. -/
private theorem run_in_turn (before : List RootSearch) (cache : ManifestCache) (dirs : List Path) :
    ∃ schedule, run w ⟨before ++ dirs.map RootSearch.start, cache⟩ schedule =
      ⟨before ++ (w.packageRoots cache dirs).1.map .done, (w.packageRoots cache dirs).2⟩ := by
  induction dirs generalizing before cache with
  | nil => exact ⟨[], rfl⟩
  | cons dir dirs ih =>
    have hnext : (before ++ (dir :: dirs).map RootSearch.start)[before.length]? =
        some (.among (World.packageCandidates dir)) := by
      simp [RootSearch.start]
    -- the first search that has not started runs to its end
    obtain ⟨steps, hsteps⟩ := run_alone (w := w)
      (s := ⟨before ++ (dir :: dirs).map RootSearch.start, cache⟩) hnext
    obtain ⟨schedule, hschedule⟩ := ih (before ++ [.done (w.packageRoot cache dir).1])
      (w.packageRoot cache dir).2
    refine ⟨List.replicate steps before.length ++ schedule, ?_⟩
    rw [run_append, hsteps]
    simpa [World.packageRoots, World.packageRoot] using hschedule

/-- Looking directories up one after the other is one of the schedules. -/
theorem packageRoots_eq_run (w : World) (cache : ManifestCache) (dirs : List Path) :
    ∃ schedule, (start cache dirs).run w schedule =
      ⟨(w.packageRoots cache dirs).1.map .done, (w.packageRoots cache dirs).2⟩ :=
  run_in_turn [] cache dirs

end SharedSearches

namespace World

open SharedSearches (spellings)

/-- The nearest directory with a parent, from a given one upwards, that directly contains a
    manifest. -/
def nearestManifest (w : World) (dir : Path) : Option Path :=
  dir.ancestors.find? fun q => q.parent.isSome && w.isFile (q.join ⟨Layout.manifestFile⟩)

/-- A single search finds the nearest manifest. -/
theorem packageRoot_empty (w : World) {dir : Path} (heven : Path.Even (packageCandidates dir)) :
    (w.packageRoot .empty dir).1 = w.nearestManifest dir := by
  have hspellings : spellings .empty [dir] = packageCandidates dir := List.append_nil _
  obtain ⟨steps, hsteps⟩ := SharedSearches.run_alone (w := w) (s := .start .empty [dir]) (i := 0) rfl
  -- it is one of several searches, of which there are no others
  have hempty : ∀ e ∈ ManifestCache.empty.entries, e.2 = w.holdsManifest e.1.path := nofun
  have hsound := SharedSearches.sound_start hempty [dir]
  rw [hspellings] at hsound
  have hrun := hsound.run heven (List.replicate steps 0)
  rw [hsteps] at hrun
  have hroot := (hrun.searches 0 _ rfl).2
  exact (Option.some.inj hroot).symm.trans (find?_packageCandidates dir _)

/-- Searches for package roots that share a cache, in whatever order they take their steps, keep
    the cache true and find what each would find alone, which is the nearest manifest; and a search
    has found it after at most three steps for each of its candidates. -/
theorem searches_agree (w : World) (cache : ManifestCache) (dirs : List Path)
    (hcache : ∀ e ∈ cache.entries, e.2 = w.holdsManifest e.1.path)
    (heven : Path.Even (spellings cache dirs)) (schedule : List Nat) :
    let reached := (SharedSearches.start cache dirs).run w schedule
    (∀ e ∈ reached.cache.entries, e.2 = w.holdsManifest e.1.path) ∧
      (∀ q found, reached.cache.lookup q = some found →
        (∀ p ∈ spellings cache dirs, p.isSame q = true → (p.Fits ↔ q.Fits)) →
        found = w.holdsManifest q) ∧
      ∀ i dir, dirs[i]? = some dir →
        (w.packageRoot .empty dir).1 = w.nearestManifest dir ∧
        (∀ root, reached.searches[i]? = some (.done root) →
          root = (w.packageRoot .empty dir).1) ∧
        (3 * (packageCandidates dir).length ≤ schedule.count i →
          reached.searches[i]? = some (.done (w.packageRoot .empty dir).1)) := by
  intro reached
  have hsound := (SharedSearches.sound_start hcache dirs).run heven schedule
  refine ⟨fun e he => (hsound.cache e he).2, fun q found hfound hfits =>
    hsound.cache.eq_of_lookup hfits hfound, fun i dir hdir => ?_⟩
  -- the spellings of one search are among those of all
  have hcandidates : Path.Even (packageCandidates dir) := by
    have hsub : packageCandidates dir ⊆ spellings cache dirs := fun q hq =>
      List.mem_append_right _ (List.mem_flatMap.2 ⟨dir, List.mem_of_getElem? hdir, hq⟩)
    exact fun p hp q hq => heven p (hsub hp) q (hsub hq)
  have hroot := packageRoot_empty w hcandidates
  have houtcome : ∀ search, reached.searches[i]? = some search →
      search.outcome w = (w.packageRoot .empty dir).1 := by
    intro search hsearch
    have h := (hsound.searches i search hsearch).2
    rw [List.getElem?_map, hdir] at h
    rw [hroot, nearestManifest, ← find?_packageCandidates]
    exact (Option.some.inj h).symm
  refine ⟨hroot, fun root hdone => houtcome _ hdone, fun henough => ?_⟩
  -- a search that has taken its steps has none left
  have hstart : (SharedSearches.start cache dirs).searches[i]? = some (.start dir) := by
    simp [SharedSearches.start, hdir]
  obtain ⟨search, hsearch, hleft⟩ := SharedSearches.stepsLeft_run (w := w) hstart schedule
  rw [RootSearch.start, RootSearch.stepsLeft_among] at hleft
  have hzero : search.stepsLeft = 0 := by omega
  rw [← houtcome search hsearch, ← RootSearch.eq_done hzero]
  exact hsearch

/-- A package with a directory. -/
def sharedPackage : World :=
  .inside (.ofEntries [(["p"], .directory), (["p", "package.json"], .file [] false),
    (["p", "lib"], .directory)]) []

/-- The searches of three spellings meet in one directory, two of them before anything is known
    about it.  What is known from the start has a spelling of its own. -/
theorem searches_agree_spellings :
    let cache : ManifestCache := ⟨[(.ofPath ⟨"/p/./lib"⟩, false)]⟩
    let dirs : List Path := [⟨"/p//lib"⟩, ⟨"/p/lib/"⟩, ⟨"/p/."⟩]
    let schedule := [0, 1, 0, 1, 0, 1, 0, 2, 1, 2, 1, 2, 0, 0, 1]
    ((∀ e ∈ cache.entries, e.2 = sharedPackage.holdsManifest e.1.path) ∧
        Path.Even (spellings cache dirs) ∧
        ∀ dir ∈ dirs, 3 * (packageCandidates dir).length ≤ 6) ∧
      ((SharedSearches.start cache dirs).run sharedPackage schedule).searches[1]? =
        some (.done (some ⟨"/p"⟩)) := by
  intro cache dirs schedule
  have hcache : ∀ e ∈ cache.entries, e.2 = sharedPackage.holdsManifest e.1.path := by
    decide +kernel
  have heven : Path.Even (spellings cache dirs) := by decide +kernel
  refine ⟨⟨hcache, heven, by decide +kernel⟩, ?_⟩
  obtain ⟨-, -, hsearches⟩ := searches_agree sharedPackage cache dirs hcache heven schedule
  -- the second search has had its six steps
  obtain ⟨hnearest, -, hdone⟩ := hsearches 1 ⟨"/p/lib/"⟩ rfl
  rw [hdone (by decide +kernel), hnearest]
  decide +kernel

/-- A spelling that is too long spoils what is found under one that is not. -/
private theorem run_stretched (more : Nat) (h : 4096 ≤ more + 2) :
    ((SharedSearches.start .empty [.stretched (more + 2), ⟨"/p"⟩]).run sharedPackage
      [0, 0, 0, 1]).searches = [.done none, .done none] := by
  have hcandidates : packageCandidates ⟨"/p"⟩ = [⟨"/p"⟩] := by decide
  have hholds : sharedPackage.holdsManifest (.stretched (more + 2)) = false :=
    holdsManifest_of_not_fits (Path.not_fits_stretched h)
  have hunknown : ∀ q, ManifestCache.empty.lookup q = none := fun _ => rfl
  -- what is stored for the one spelling is read for the other
  have hknown : (ManifestCache.empty.put (.stretched (more + 2)) false).lookup ⟨"/p"⟩ =
      some false := by
    rw [ManifestCache.put_of_unknown (hunknown _), ManifestCache.lookup_store, hunknown,
      Path.isSame_stretched]
    rfl
  simp [SharedSearches.start, SharedSearches.stepAt, RootSearch.start, RootSearch.among,
    RootSearch.answered, RootSearch.step, Path.packageCandidates_stretched, hcandidates, hholds,
    hunknown, hknown]

/-- The searches of two spellings of one directory, of which one is too long, do not find the same
    as each alone. -/
theorem searches_disagree_stretched :
    (∀ e ∈ ManifestCache.empty.entries, e.2 = sharedPackage.holdsManifest e.1.path) ∧
      ((SharedSearches.start .empty [.stretched 4096, ⟨"/p"⟩]).run sharedPackage
        [0, 0, 0, 1]).searches[1]? = some (.done none) ∧
      (sharedPackage.packageRoot .empty ⟨"/p"⟩).1 = some ⟨"/p"⟩ := by
  refine ⟨nofun, ?_, by decide +kernel⟩
  rw [run_stretched 4094 (Nat.le_refl _)]
  rfl

end World

end TypeLeak
