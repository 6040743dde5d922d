import Mathlib.Data.List.Find
import Mathlib.Data.List.Infix
import TypeLeak.Package.Flagged
import TypeLeak.Proofs.AsciiText
import TypeLeak.Proofs.PathNames

/-!
# Flagging packages in one pass

The packages that listed files lie in are found in three rounds, each of which leaves out
repetitions, with a cache that all look-ups of manifests share.  This file proves that nothing of
this can be seen from outside: going through the listing once, file by file, with nothing
remembered, flags the same packages in the same order.

## Key results

- `keepFirst_eq_eraseDups`, `keepFirst_filterMap`: repetitions may be left out early or late
- `packageRoots_eq`: with a truthful cache every look-up gives what the file system says
- `flagged_eq_one_pass`: the flagged packages are those of the one pass
-/

namespace TypeLeak

namespace Package

/-! ## Leaving out repetitions -/

section KeepFirst

variable {α β : Type}

/-- What is kept was there. -/
theorem mem_of_mem_keepFirst {same : α → α → Bool} {xs : List α} {x : α}
    (h : x ∈ keepFirst same xs) : x ∈ xs := by
  induction xs with
  | nil => simp [keepFirst] at h
  | cons a xs ih =>
    -- what is kept of the rest is filtered, but nothing is put in
    rcases List.mem_cons.1 h with rfl | h
    · exact List.mem_cons_self ..
    · exact List.mem_cons_of_mem _ (ih (List.mem_filter.1 h).1)

/-- Items that are told apart in the same way are kept in the same way. -/
theorem keepFirst_map_of_mem {same : α → α → Bool} {same' : β → β → Bool} (f : α → β)
    {xs : List α} (h : ∀ x ∈ xs, ∀ y ∈ xs, same' (f x) (f y) = same x y) :
    keepFirst same' (xs.map f) = (keepFirst same xs).map f := by
  induction xs with
  | nil => rfl
  | cons x xs ih =>
    rw [List.map_cons, keepFirst, keepFirst, List.map_cons,
      ih fun a ha b hb => h a (by simp [ha]) b (by simp [hb]), List.filter_map]
    -- the first item is kept in both, and takes the same ones out of the rest
    congr 2
    apply List.filter_congr
    intro y hy
    have hy' := mem_of_mem_keepFirst hy
    simp [h x (by simp) y (by simp [hy'])]

/-- Leaving out repetitions and leaving out items by what the same items have in common may come in
    either order. -/
theorem keepFirst_filter_of_same {same : α → α → Bool} {p : α → Bool}
    (hp : ∀ x y, same x y = true → p x = p y) (xs : List α) :
    keepFirst same (xs.filter p) = (keepFirst same xs).filter p := by
  induction xs with
  | nil => rfl
  | cons x xs ih =>
    by_cases hx : p x = true
    · rw [List.filter_cons_of_pos hx, keepFirst, keepFirst, ih, List.filter_cons_of_pos hx,
        List.filter_comm]
    · -- `x` is left out, and all that is the same as it along with it
      rw [List.filter_cons_of_neg hx, ih, keepFirst, List.filter_cons_of_neg hx, List.filter_filter]
      apply List.filter_congr
      intro y _
      by_cases hxy : same x y = true
      · have hy := hp x y hxy
        simp [← hy, hx]
      · simp [hxy]

/-- Repetitions that are left out before items are looked at would have been left out after, if the
    same items come to the same. -/
theorem keepFirst_filterMap_of_same {same : α → α → Bool} {same' : β → β → Bool} {f : α → Option β}
    (hsame' : ∀ a b c, same' b c = true → same' a b = same' a c) {xs : List α}
    (hf : ∀ x ∈ xs, ∀ y ∈ xs, same x y = true →
      Option.Rel (fun a b => same' a b = true) (f x) (f y)) :
    keepFirst same' ((keepFirst same xs).filterMap f) = keepFirst same' (xs.filterMap f) := by
  induction xs with
  | nil => rfl
  | cons x xs ih =>
    have hxs : ∀ y ∈ keepFirst same xs, same x y = true →
        Option.Rel (fun a b => same' a b = true) (f x) (f y) := fun y hy =>
      hf x (List.mem_cons_self ..) y (List.mem_cons_of_mem _ (mem_of_mem_keepFirst hy))
    replace ih := ih fun y hy z hz => hf y (List.mem_cons_of_mem _ hy) z (List.mem_cons_of_mem _ hz)
    rw [keepFirst]
    cases hx : f x with
    | none =>
      -- what is the same as `x` becomes nothing, whether it is left out or not
      rw [List.filterMap_cons_none hx, List.filterMap_cons_none hx, ← ih, List.filterMap_filter]
      congr 1
      apply List.filterMap_congr
      intro y hy
      by_cases hxy : same x y = true
      · have hrel := hxs y hy hxy
        rw [hx] at hrel
        cases hfy : f y with
        | none => simp
        | some c =>
          rw [hfy] at hrel
          cases hrel
      · simp [hxy]
    | some b =>
      -- what is the same as `x` becomes the same as `b`, of which only the first is kept anyway
      have hlists : (((keepFirst same xs).filter fun y => !same x y).filterMap f).filter
            (fun z => !same' b z) =
          ((keepFirst same xs).filterMap f).filter fun z => !same' b z := by
        rw [List.filterMap_filter, List.filter_filterMap, List.filter_filterMap]
        apply List.filterMap_congr
        intro y hy
        by_cases hxy : same x y = true
        · have hrel := hxs y hy hxy
          rw [hx] at hrel
          cases hfy : f y with
          | none => simp [Option.filter]
          | some c =>
            rw [hfy] at hrel
            cases hrel with
            | some hbc => simp [hxy, hbc, Option.filter]
        · simp [hxy]
      have hb : ∀ y z, same' y z = true → (!same' b y) = !same' b z := fun y z hyz => by
        rw [hsame' b y z hyz]
      rw [List.filterMap_cons_some hx, List.filterMap_cons_some hx, keepFirst, keepFirst, ← ih,
        ← keepFirst_filter_of_same hb, ← keepFirst_filter_of_same hb, hlists]

variable [BEq α] [LawfulBEq α] [BEq β] [LawfulBEq β]

/-- Items that are told apart by equality may be left out before or after. -/
theorem keepFirst_filter (p : α → Bool) (xs : List α) :
    keepFirst (· == ·) (xs.filter p) = (keepFirst (· == ·) xs).filter p :=
  keepFirst_filter_of_same (fun _ _ h => by rw [eq_of_beq h]) xs

/-- Equal items that come again are left out. -/
theorem keepFirst_eq_eraseDups (xs : List α) : keepFirst (· == ·) xs = xs.eraseDups := by
  -- what is left after filtering is shorter, but no tail of the list
  induction hn : xs.length using Nat.strongRecOn generalizing xs with
  | ind n ih =>
    cases xs with
    | nil => rfl
    | cons x xs =>
      have hlen := List.length_filter_le (fun y => !y == x) xs
      rw [List.length_cons] at hn
      rw [keepFirst, List.eraseDups_cons, ← ih _ (by omega) _ rfl, keepFirst_filter]
      congr 1
      exact List.filter_congr fun y _ => by rw [Bool.beq_comm]

/-- Repetitions that are left out before items are looked at would have been left out after. -/
theorem keepFirst_filterMap (f : α → Option β) (xs : List α) :
    keepFirst (· == ·) ((keepFirst (· == ·) xs).filterMap f) = keepFirst (· == ·) (xs.filterMap f) := by
  apply keepFirst_filterMap_of_same
  · intro a b c h
    rw [eq_of_beq h]
  · intro x _ y _ h
    rw [eq_of_beq h]
    -- equal items come to the same, or both to nothing
    cases f y with
    | none => exact .none
    | some b => exact .some (BEq.rfl)

/-- What is kept comes in the order in which it is first met. -/
theorem pairwise_idxOf_keepFirst (xs : List α) (p : α → Bool) :
    (keepFirst (· == ·) (xs.filter p)).Pairwise fun x y => xs.idxOf x < xs.idxOf y := by
  induction xs generalizing p with
  | nil => simp [keepFirst]
  | cons x xs ih =>
    -- the index of anything but `x` is one more than before
    have hlift : ∀ ys : List α, (∀ y ∈ ys, (x == y) = false) →
        ys.Pairwise (fun a b => xs.idxOf a < xs.idxOf b) →
        ys.Pairwise fun a b => (x :: xs).idxOf a < (x :: xs).idxOf b := by
      intro ys hys hpair
      apply hpair.imp_of_mem
      intro a b ha hb hab
      rw [List.idxOf_cons, List.idxOf_cons, hys _ ha, hys _ hb]
      simpa using hab
    by_cases hp : p x = true
    · rw [List.filter_cons_of_pos hp, keepFirst, ← keepFirst_filter, List.filter_filter,
        List.pairwise_cons]
      -- what is kept behind `x` is none of its repetitions
      have hne : ∀ y ∈ keepFirst (· == ·) (xs.filter fun y => !x == y && p y),
          (x == y) = false := by
        intro y hy
        have := (List.mem_filter.1 (mem_of_mem_keepFirst hy)).2
        simp_all
      refine ⟨fun y hy => ?_, hlift _ hne (ih _)⟩
      rw [List.idxOf_cons_self, List.idxOf_cons, hne y hy]
      simp
    · rw [List.filter_cons_of_neg hp]
      refine hlift _ (fun y hy => ?_) (ih p)
      have hy' := (List.mem_filter.1 (mem_of_mem_keepFirst hy)).2
      rw [beq_eq_false_iff_ne]
      rintro rfl
      exact hp hy'

end KeepFirst

end Package

/-! ## Looking for package roots with a cache -/

namespace Location

/-- A listing, which is text, can hold the path of a location. -/
structure Listable (loc : Location) : Prop where
  proper : loc.IsProper
  utf8 : loc.path.text.IsUtf8

/-- Both conditions can be decided. -/
theorem listable_iff {loc : Location} : loc.Listable ↔ loc.IsProper ∧ loc.path.text.IsUtf8 :=
  ⟨fun h => ⟨h.proper, h.utf8⟩, fun h => ⟨h.1, h.2⟩⟩

instance (loc : Location) : Decidable loc.Listable := decidable_of_iff _ listable_iff.symm

/-- What is listed is the path itself. -/
theorem Listable.mk_lossy {loc : Location} (h : loc.Listable) :
    Path.mk (.ofString loc.path.lossy) = loc.path := congrArg Path.mk h.utf8

/-- The directories that can be the root of a package, from a given one upwards. -/
theorem packageCandidates_path {dir : Location} (hdir : dir.IsProper) :
    World.packageCandidates dir.path = (dir.inits.reverse.filter (· ≠ [])).map path := by
  unfold World.packageCandidates
  rw [ancestors_path hdir]
  -- from the end: a directory is its own longest beginning
  induction dir using List.reverseRecOn with
  | nil => rfl
  | append_singleton dir name ih =>
    obtain ⟨hfront, hname⟩ := isProper_concat.1 hdir
    have hinits : (dir ++ [name]).inits = dir.inits ++ [dir ++ [name]] := by
      simp [List.inits_append]
    simp only [hinits, List.reverse_append, List.reverse_singleton, List.singleton_append,
      List.map_cons]
    rw [List.takeWhile_cons_of_pos (by simp [parent_path hfront hname]),
      List.filter_cons_of_pos (by simp), List.map_cons, ih hfront]

end Location

namespace World

variable {w : World}

/-- What a cache says about locations is what the file system says. -/
def Truthful (w : World) (cache : ManifestCache) : Prop :=
  ∀ dir : Location, dir.IsProper → ∀ found, cache.lookup dir.path = some found →
    found = w.holdsManifest dir.path

/-- A cache that says nothing says nothing wrong. -/
theorem truthful_empty (w : World) : w.Truthful .empty := by
  intro dir _ found h
  simp [ManifestCache.lookup, ManifestCache.empty] at h

/-- Asking about a directory gives the truth and leaves the cache truthful. -/
theorem hasManifest_truthful {cache : ManifestCache} (h : w.Truthful cache) {dir : Location}
    (hdir : dir.IsProper) :
    (w.hasManifest cache dir.path).1 = w.holdsManifest dir.path ∧
      w.Truthful (w.hasManifest cache dir.path).2 := by
  cases hlookup : cache.lookup dir.path with
  | some found =>
    rw [hasManifest_of_lookup w hlookup]
    exact ⟨h dir hdir found hlookup, h⟩
  | none =>
    rw [hasManifest_of_unknown w hlookup]
    refine ⟨rfl, fun other hother found hfound => ?_⟩
    -- what the cache says about another directory it said before, or both are the same
    rw [ManifestCache.lookup_store] at hfound
    cases hknown : cache.lookup other.path with
    | some known =>
      rw [hknown, Option.some_or] at hfound
      rw [← Option.some.inj hfound]
      exact h other hother known hknown
    | none =>
      rw [hknown, Option.none_or] at hfound
      split at hfound
      · rename_i hsame
        rw [← (Location.isSame_path hdir hother).1 hsame]
        exact (Option.some.inj hfound).symm
      · simp at hfound

/-- The first directory found with a truthful cache is the first that holds a manifest. -/
theorem firstWithManifest_truthful {cache : ManifestCache} (h : w.Truthful cache)
    {dirs : List Location} (hdirs : ∀ dir ∈ dirs, dir.IsProper) :
    (w.firstWithManifest cache (dirs.map Location.path)).1 =
        (dirs.find? fun dir => w.holdsManifest dir.path).map Location.path ∧
      w.Truthful (w.firstWithManifest cache (dirs.map Location.path)).2 := by
  induction dirs generalizing cache with
  | nil => exact ⟨rfl, h⟩
  | cons dir dirs ih =>
    obtain ⟨hfound, hcache⟩ := hasManifest_truthful h (hdirs dir (by simp))
    have hrest := ih hcache fun d hd => hdirs d (by simp [hd])
    rw [List.map_cons, firstWithManifest, List.find?_cons, ← hfound]
    -- the search stops here, or goes on with the cache that this look-up leaves
    split
    · rename_i heq
      rw [heq] at hcache ⊢
      exact ⟨rfl, hcache⟩
    · rename_i heq
      rw [heq] at hrest ⊢
      exact hrest

/-- The nearest directory, from a given one upwards, that directly contains a manifest.  The root
    of the file system is none. -/
def nearestPackage (w : World) (dir : Location) : Option Location :=
  dir.inits.reverse.find? fun d =>
    d ≠ [] ∧ w.isFile (Location.path (d ++ [.ofString Layout.manifestFile]))

/-- The look-up of one directory finds its package, and leaves the cache truthful. -/
theorem packageRoot_truthful {cache : ManifestCache} (h : w.Truthful cache) {dir : Location}
    (hdir : dir.IsProper) :
    (w.packageRoot cache dir.path).1 = (w.nearestPackage dir).map Location.path ∧
      w.Truthful (w.packageRoot cache dir.path).2 := by
  -- the candidates are the beginnings of the location, so their names are proper
  have hcandidates : ∀ d ∈ dir.inits.reverse, Location.IsProper d := by
    intro d hd
    rw [List.mem_reverse, List.mem_inits] at hd
    exact hdir.beginning hd
  unfold packageRoot
  rw [Location.packageCandidates_path hdir]
  obtain ⟨hfound, hcache⟩ := firstWithManifest_truthful h
    fun d hd => hcandidates d (List.mem_filter.1 hd).1
  refine ⟨hfound.trans ?_, hcache⟩
  rw [List.find?_filter, nearestPackage]
  congr 1
  refine List.find?_congr fun d hd => ?_
  rw [holdsManifest, Location.path_join (hcandidates d hd) (by decide)]
  simp

/-- With a truthful cache every look-up gives what the file system says. -/
theorem packageRoots_eq {cache : ManifestCache} (h : w.Truthful cache) {dirs : List Location}
    (hdirs : ∀ dir ∈ dirs, dir.IsProper) :
    (w.packageRoots cache (dirs.map Location.path)).1 =
      dirs.map fun dir => (w.nearestPackage dir).map Location.path := by
  induction dirs generalizing cache with
  | nil => rfl
  | cons dir dirs ih =>
    -- each look-up leaves a truthful cache to the next one
    obtain ⟨hroot, hcache⟩ := packageRoot_truthful h (hdirs dir (by simp))
    have hrest := ih hcache fun d hd => hdirs d (by simp [hd])
    simp only [List.map_cons, packageRoots]
    rw [hroot, hrest]

end World

/-! ## The one pass -/

namespace Manifest

/-- The packages that a class of dependencies has, if there is one. -/
def keys (c : Option DependencyClass) : List String := (c.getD []).map Prod.fst

/-- A package is a development dependency and nothing else, and it is not the compiler's. -/
def OnlyDev (m : Manifest) (name : String) : Prop :=
  name ∈ keys m.dev ∧ name ∉ keys m.runtime ∧ name ∉ keys m.peer ∧ name ≠ "typescript"

instance (m : Manifest) (name : String) : Decidable (m.OnlyDev name) :=
  inferInstanceAs (Decidable (_ ∧ _ ∧ _ ∧ _))

/-- A package is among the keys of a class exactly if the class declares it. -/
theorem mem_keys_iff {c : Option DependencyClass} {name : String} :
    name ∈ keys c ↔ declares c name = true := by
  cases c <;> simp [keys, declares]

/-- So `isDevOnly` decides what `OnlyDev` says. -/
theorem onlyDev_iff {m : Manifest} {name : String} :
    m.OnlyDev name ↔ m.isDevOnly name = true := by
  rw [isDevOnly_iff, OnlyDev, mem_keys_iff, mem_keys_iff, mem_keys_iff]
  simp only [declaresDev, declaresRuntime, declaresPeer, Layout.compilerPackage, Bool.not_eq_true]
  exact ⟨fun ⟨hdev, hruntime, hpeer, hname⟩ => ⟨hname, hdev, hruntime, hpeer⟩,
    fun ⟨hname, hdev, hruntime, hpeer⟩ => ⟨hdev, hruntime, hpeer, hname⟩⟩

end Manifest

namespace World

open Package

variable {w : World}

/-- The directory that a listed file lies in.  The root of the file system lies in none. -/
def listedDir (file : Location) : Option Location :=
  if file = [] then none else some file.dropLast

/-- The names of the packages that files lie in, file by file. -/
def reachedNames (w : World) (files : List Location) : List String :=
  files.filterMap fun file => (w.nearestPackage file.dropLast).map fun root => nameOf root.path

/-- The parent of a file's path is the path of its directory. -/
private theorem parent_eq_listedDir {file : Location} (hfile : file.IsProper) :
    file.path.parent = (listedDir file).map Location.path := by
  cases file using List.reverseRecOn with
  | nil => exact Location.parent_path_nil
  | append_singleton dir name =>
    obtain ⟨hdir, hname⟩ := Location.isProper_concat.1 hfile
    simp [listedDir, Location.parent_path hdir hname]

/-- The directory of a proper file is proper. -/
private theorem isProper_listedDir {file dir : Location} (hfile : file.IsProper)
    (h : listedDir file = some dir) : dir.IsProper := by
  unfold listedDir at h
  split at h
  · simp at h
  · rw [← Option.some.inj h]
    exact hfile.beginning (List.dropLast_prefix _)

/-- So is the package above a proper directory. -/
private theorem isProper_nearestPackage {dir root : Location} (hdir : dir.IsProper)
    (h : w.nearestPackage dir = some root) : root.IsProper := by
  have hmem := List.mem_of_find?_eq_some h
  rw [List.mem_reverse, List.mem_inits] at hmem
  exact hdir.beginning hmem

/-- The paths of locations are kept as the locations are. -/
theorem keepFirstPaths_map_path {locs : List Location} (hlocs : ∀ loc ∈ locs, loc.IsProper) :
    keepFirstPaths (locs.map Location.path) = (keepFirst (· == ·) locs).map Location.path := by
  rw [keepFirstPaths_eq]
  apply keepFirst_map_of_mem Location.path
  intro a ha b hb
  rw [Bool.eq_iff_iff, Location.isSame_path (hlocs a ha) (hlocs b hb), beq_iff_eq]

/-- Choosing among images is one step that may come to nothing. -/
private theorem filter_map_eq_filterMap {α β : Type} (f : α → β) (p : β → Bool) (xs : List α) :
    (xs.map f).filter p = xs.filterMap fun x => (some (f x)).filter p := by
  rw [← List.filter_filterMap, List.filterMap_eq_map']

/-- Three rounds that leave out repetitions flag what one round at the end flags. -/
theorem flagged_eq_keepFirst (w : World) (m : Manifest) {files : List Location}
    (hfiles : ∀ file ∈ files, file.Listable) :
    w.flagged m (files.map fun file => file.path.lossy) =
      keepFirst (· == ·) ((w.reachedNames files).filter m.isDevOnly) := by
  have hdirs : ∀ dir ∈ files.filterMap listedDir, dir.IsProper := by
    intro dir hdir
    obtain ⟨file, hfile, hlisted⟩ := List.mem_filterMap.1 hdir
    exact isProper_listedDir (hfiles file hfile).proper hlisted
  have hkept : ∀ dir ∈ keepFirst (· == ·) (files.filterMap listedDir), dir.IsProper :=
    fun dir hdir => hdirs dir (mem_of_mem_keepFirst hdir)
  have hroots : ∀ root ∈ (keepFirst (· == ·) (files.filterMap listedDir)).filterMap
      w.nearestPackage, root.IsProper := by
    intro root hroot
    obtain ⟨dir, hdir, hnearest⟩ := List.mem_filterMap.1 hroot
    exact isProper_nearestPackage (hkept dir hdir) hnearest
  -- the paths that the rounds go through are those of locations
  have hparents : ((files.map fun file => file.path.lossy).filterMap fun file =>
      (Path.mk (.ofString file)).parent) = (files.filterMap listedDir).map Location.path := by
    have hparent : ∀ file ∈ files, (Path.mk (.ofString file.path.lossy)).parent =
        (listedDir file).map Location.path := by
      intro file hfile
      rw [(hfiles file hfile).mk_lossy, parent_eq_listedDir (hfiles file hfile).proper]
    simp only [List.filterMap_map, List.map_filterMap, Function.comp_def]
    exact List.filterMap_congr hparent
  have hfound : ((w.packageRoots .empty
        ((keepFirst (· == ·) (files.filterMap listedDir)).map Location.path)).1.filterMap id) =
      ((keepFirst (· == ·) (files.filterMap listedDir)).filterMap w.nearestPackage).map
        Location.path := by
    rw [packageRoots_eq (truthful_empty w) hkept, List.filterMap_map, List.map_filterMap]
    rfl
  unfold flagged
  dsimp only
  -- from the last round to the first, leaving out repetitions is put off to the end
  rw [hparents, keepFirstPaths_map_path hdirs, hfound, keepFirstPaths_map_path hroots,
    List.map_map, filter_map_eq_filterMap, keepFirst_filterMap, List.filterMap_filterMap,
    keepFirst_filterMap, List.filterMap_filterMap, reachedNames, List.filter_filterMap]
  congr 1
  apply List.filterMap_congr
  intro file _
  by_cases hfile : file = []
  · -- the root of the file system has no parent, and no package above it
    subst hfile
    rfl
  · simp only [listedDir, hfile, if_false, Option.bind_some]
    cases w.nearestPackage file.dropLast <;> rfl

/-- Flagging the packages of a listing is the same as going through it once, file by file, with
    nothing remembered: a file belongs to the nearest directory above it that holds a manifest,
    and of the names found those of mere development dependencies are flagged, each when it is
    first reached. -/
theorem flagged_eq_one_pass (w : World) (m : Manifest) (files : List Location)
    (hfiles : ∀ file ∈ files, file.Listable) :
    let flagged := w.flagged m (files.map fun file => file.path.lossy)
    flagged = ((w.reachedNames files).filter fun name => m.OnlyDev name).eraseDups ∧
      flagged.Nodup ∧
      (∀ name, name ∈ flagged ↔ m.OnlyDev name ∧ ∃ file ∈ files, ∃ root,
        w.nearestPackage file.dropLast = some root ∧ nameOf root.path = name) ∧
      flagged.Pairwise fun a b =>
        (w.reachedNames files).idxOf a < (w.reachedNames files).idxOf b := by
  have hdev : (w.reachedNames files).filter (fun name => decide (m.OnlyDev name)) =
      (w.reachedNames files).filter m.isDevOnly :=
    List.filter_congr fun name _ => by rw [Bool.eq_iff_iff, decide_eq_true_eq, Manifest.onlyDev_iff]
  intro flagged
  have hflagged : flagged = keepFirst (· == ·) ((w.reachedNames files).filter m.isDevOnly) :=
    flagged_eq_keepFirst w m hfiles
  have hordered := pairwise_idxOf_keepFirst (w.reachedNames files) m.isDevOnly
  refine ⟨?_, ?_, fun name => ?_, ?_⟩
  · rw [hflagged, hdev, keepFirst_eq_eraseDups]
  · rw [hflagged]
    exact hordered.imp fun hlt heq => by rw [heq] at hlt; exact Nat.lt_irrefl _ hlt
  · rw [hflagged, keepFirst_eq_eraseDups, List.mem_eraseDups, List.mem_filter,
      Manifest.onlyDev_iff, and_comm]
    simp [reachedNames]
  · -- two names in order are at different places, so they differ
    rw [hflagged]
    exact hordered

/-- A project with two installed packages, one of them scoped. -/
def installedProject : World :=
  .inside
    (.ofEntries [(["p"], .directory), (["p", "package.json"], .file [] false),
      (["p", "node_modules"], .directory), (["p", "node_modules", "left-pad"], .directory),
      (["p", "node_modules", "left-pad", "package.json"], .file [] false),
      (["p", "node_modules", "@types"], .directory),
      (["p", "node_modules", "@types", "react"], .directory),
      (["p", "node_modules", "@types", "react", "package.json"], .file [] false)]) []

/-- A listing that comes back to a package and a directory. -/
def installedListing : List Location :=
  [["p", "src", "index.ts"], ["p", "node_modules", "left-pad", "lib", "pad.d.ts"],
    ["p", "node_modules", "@types", "react", "index.d.ts"],
    ["p", "node_modules", "left-pad", "index.d.ts"], ["lost.d.ts"],
    ["p", "node_modules", "left-pad", "lib", "more.d.ts"]]

/-- Of the two packages each is flagged once, where the listing first comes to it. -/
theorem flagged_eq_one_pass_installed :
    (∀ file ∈ installedListing, file.Listable) ∧
      installedProject.flagged
          ⟨none, none, none, some [("@types/react", "1"), ("left-pad", "1")], none⟩
          (installedListing.map fun file => file.path.lossy) = ["left-pad", "@types/react"] := by
  have hfiles : ∀ file ∈ installedListing, file.Listable := by decide
  refine ⟨hfiles, ?_⟩
  rw [(flagged_eq_one_pass installedProject _ installedListing hfiles).1]
  decide +kernel

end World

end TypeLeak
