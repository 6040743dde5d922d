import TypeLeak.Proofs.PackageListing
import TypeLeak.Proofs.PathWalk

/-!
# Following the advice about flagged packages

A check advises to move the packages that it flags into the dependencies that are passed on to
users.  This file proves that the advice is sound: a package that was moved is not flagged any more,
and it makes no difference to the others, whichever of the two classes it was moved to and whether
or not it was left among the development dependencies.

## Key results

- `promoted_promote`: adding to classes of dependencies is a promotion
- `Promoted.isDevOnly_eq`: which packages are mere development dependencies after one
- `holdsManifest_overwrite`: no manifest comes or goes when a file is written anew
- `flagged_promoted`: what is flagged after a promotion
-/

namespace TypeLeak

namespace Manifest

/-! ## Promotions -/

/-- A package is passed on: those who use this one get it too, or have to bring it. -/
def PassesOn (m : Manifest) (name : String) : Prop := name ∈ keys m.runtime ∨ name ∈ keys m.peer

/-- One manifest is another one in which packages were promoted: these are passed on now.  They may
    have been left among the development dependencies or not. -/
structure Promoted (m : Manifest) (names : List String) (m' : Manifest) : Prop where
  passesOn : ∀ name, m'.PassesOn name ↔ m.PassesOn name ∨ name ∈ names
  dev : ∀ name, name ∉ names → (name ∈ keys m'.dev ↔ name ∈ keys m.dev)

/-- The class with more packages, which is made if there is none. -/
def withPackages (c : Option DependencyClass) (added : DependencyClass) : Option DependencyClass :=
  some (c.getD [] ++ added)

/-- The manifest with packages added to its dependencies and its peer dependencies, and some left
    out of its development dependencies. -/
def promote (m : Manifest) (runtime peer : DependencyClass) (dropped : List String) : Manifest :=
  { m with
    runtime := withPackages m.runtime runtime
    peer := withPackages m.peer peer
    dev := m.dev.map fun deps => deps.filter fun d => d.1 ∉ dropped }

/-- The packages of a class are those before and those added. -/
theorem mem_keys_withPackages {c : Option DependencyClass} {added : DependencyClass}
    {name : String} :
    name ∈ keys (withPackages c added) ↔ name ∈ keys c ∨ name ∈ added.map Prod.fst := by
  rw [keys, withPackages, Option.getD_some, List.map_append, List.mem_append, keys]

/-- Adding packages promotes them, whichever of them are left out elsewhere. -/
theorem promoted_promote (m : Manifest) (runtime peer : DependencyClass) (dropped : List String)
    (hdropped : dropped ⊆ (runtime ++ peer).map Prod.fst) :
    m.Promoted ((runtime ++ peer).map Prod.fst) (m.promote runtime peer dropped) := by
  constructor
  · intro name
    simp only [PassesOn, promote, mem_keys_withPackages, List.map_append, List.mem_append]
    tauto
  · intro name hname
    -- only packages that are promoted are dropped, so any other one stays declared
    have hkept : name ∉ dropped := fun h => hname (hdropped h)
    cases hdev : m.dev with
    | none => simp [promote, hdev]
    | some deps => simp [promote, hdev, keys, hkept]

namespace Promoted

variable {m m' : Manifest} {names : List String}

/-- The packages promoted are mere development dependencies no more, and the others are as before. -/
theorem isDevOnly_eq (h : m.Promoted names m') (name : String) :
    m'.isDevOnly name = (m.isDevOnly name && decide (name ∉ names)) := by
  -- being passed on is all that promotion changes about a package outside its own class
  have honly : ∀ m : Manifest,
      m.OnlyDev name ↔ name ∈ keys m.dev ∧ ¬ m.PassesOn name ∧ name ≠ "typescript" := by
    intro m
    rw [PassesOn, not_or, and_assoc]
    rfl
  rw [Bool.eq_iff_iff, Bool.and_eq_true, decide_eq_true_eq, ← onlyDev_iff, ← onlyDev_iff, honly,
    honly, h.passesOn, not_or]
  by_cases hname : name ∈ names
  · exact iff_of_false (fun hleft => hleft.2.1.2 hname) fun hright => hright.2 hname
  · rw [h.dev name hname]
    tauto

end Promoted

end Manifest

namespace World

open Package

variable {w w' : World}

/-! ## Where manifests are -/

/-- A directory holds a manifest as long as the ways are there, and files where there were files. -/
theorem holdsManifest_mono (hcwd : w'.cwd = w.cwd) (hways : w.tree.WaysIn w'.tree)
    (hfiles : ∀ loc bytes executable, w.tree.get? loc = some (.file bytes executable) →
      ∃ bytes' executable', w'.tree.get? loc = some (.file bytes' executable'))
    {dir : Path} (h : w.holdsManifest dir = true) : w'.holdsManifest dir = true := by
  have hname : Path.IsName Layout.manifestFile := by decide
  obtain ⟨loc, bytes, executable, hresolve⟩ := isFile_eq_true_iff.1 h
  have hget := FileTree.get?_of_resolve hresolve
  obtain ⟨hshort, hnul, links, reached, hreach, hwalk⟩ := (resolve_join hname).1 hresolve
  -- the file stands where the walk ends, and so does the one that has taken its place
  obtain ⟨dir', last, hends, rfl, -⟩ :=
    (FileTree.finds_of_walk hwalk).ends (.inr ⟨bytes, executable, rfl⟩)
  obtain ⟨bytes', executable', hget'⟩ := hfiles _ _ _ hget
  exact isFile_eq_true_iff.2 ⟨_, bytes', executable', (resolve_join hname).2
    ⟨hshort, hnul, links, reached, hreach.mono hcwd hways,
      FileTree.walk_of_ends (hends.mono hways) hget'⟩⟩

/-- No manifest comes or goes when a file is written anew. -/
theorem holdsManifest_overwrite {loc : Location} {old new : List UInt8}
    {wasExecutable executable : Bool} (hold : w.tree.get? loc = some (.file old wasExecutable))
    (hcwd : w'.cwd = w.cwd) (hnew : w'.tree = w.tree.insert loc (.file new executable))
    (dir : Path) : w'.holdsManifest dir = w.holdsManifest dir := by
  have hfile : ∀ e, w.tree.get? loc = some e → ∃ bytes executable, e = .file bytes executable := by
    intro e he
    rw [hold] at he
    exact ⟨old, wasExecutable, (Option.some.inj he).symm⟩
  -- a file is below the root of the tree
  have hwritten : w'.tree.get? loc = some (.file new executable) := by
    have hne : loc ≠ [] := by
      rintro rfl
      exact nomatch hold
    rw [hnew, FileTree.get?_insert, if_neg hne, if_pos rfl]
  -- a file takes the place of a file, so no way comes or goes
  have hbefore : w'.tree.WaysIn w.tree := by
    rw [hnew]
    exact w.tree.waysIn_of_insert loc new executable
  have hafter : w.tree.WaysIn w'.tree := by
    rw [hnew]
    exact FileTree.waysIn_insert _ hfile
  rw [Bool.eq_iff_iff]
  constructor
  · -- a file there now was there before, if it is not the one written
    refine holdsManifest_mono hcwd.symm hbefore fun loc' bytes executable' hget => ?_
    by_cases heq : loc' = loc
    · rw [heq]
      exact ⟨old, wasExecutable, hold⟩
    · rw [hnew, FileTree.get?_insert_of_ne heq] at hget
      exact ⟨bytes, executable', hget⟩
  · -- and a file there before is there still, or the one written
    refine holdsManifest_mono hcwd hafter fun loc' bytes executable' hget => ?_
    by_cases heq : loc' = loc
    · rw [heq] at hget ⊢
      exact ⟨new, executable, hwritten⟩
    · rw [hnew, FileTree.get?_insert_of_ne heq]
      exact ⟨bytes, executable', hget⟩

/-! ## What is flagged -/

/-- The roots of packages depend only on where there are manifests. -/
theorem packageRoots_congr (hmanifests : ∀ dir, w'.holdsManifest dir = w.holdsManifest dir)
    (cache : ManifestCache) (dirs : List Path) :
    w'.packageRoots cache dirs = w.packageRoots cache dirs :=
  packageRoots_congr_of_mem (fun _ _ q _ => hmanifests q) cache

/-- After packages were promoted, in the same project or in one that differs only in what its files
    hold, the check of the same listing flags the packages that it flagged before, in the same order
    and without those promoted.  If all that were flagged have been promoted, it flags none. -/
theorem flagged_promoted (w w' : World) (files : List String) {m m' : Manifest}
    {names : List String} (h : m.Promoted names m')
    (hmanifests : ∀ dir, w'.holdsManifest dir = w.holdsManifest dir) :
    w'.flagged m' files = (w.flagged m files).filter (fun name => name ∉ names) ∧
      (w.flagged m files ⊆ names → w'.flagged m' files = []) := by
  have hflagged :
      w'.flagged m' files = (w.flagged m files).filter fun name => name ∉ names := by
    unfold flagged
    dsimp only
    -- the roots are the same, so the names come in the same order, and the rest is a filter
    rw [packageRoots_congr hmanifests, keepFirst_filter, keepFirst_filter, List.filter_filter]
    apply List.filter_congr
    intro name _
    rw [h.isDevOnly_eq, Bool.and_comm]
  refine ⟨hflagged, fun hall => ?_⟩
  rw [hflagged, List.filter_eq_nil_iff]
  intro name hname
  simp [hall hname]

/-- A manifest that declares two packages for development only. -/
def leakyManifest : Manifest :=
  ⟨none, none, none, some [("@types/react", "1"), ("left-pad", "1")], none⟩

/-- The project with its manifest written anew. -/
def editedProject : World :=
  { installedProject with
    tree := installedProject.tree.insert ["p", "package.json"]
      (.file (Text.Utf8.encode "\x7b\"peerDependencies\": \x7b\"left-pad\": \"1\"\x7d\x7d") false) }

/-- A listing with paths from the root and from the current directory, spelled in several ways. -/
def spelledListing : List String :=
  ["p/src/index.ts", "p/node_modules/left-pad//lib/pad.d.ts",
    "/p/node_modules/@types/react/index.d.ts", "p/./node_modules/left-pad/index.d.ts"]

/-- One of the packages is flagged no more when it has become a peer dependency, and neither is when
    both have been added, although they are left where they were. -/
theorem flagged_promoted_installed :
    installedProject.flagged leakyManifest spelledListing = ["left-pad", "@types/react"] ∧
      editedProject.flagged (leakyManifest.promote [] [("left-pad", "1")] ["left-pad"])
        spelledListing = ["@types/react"] ∧
      editedProject.flagged (leakyManifest.promote [("left-pad", "1")] [("@types/react", "1")] [])
        spelledListing = [] := by
  have hflagged : installedProject.flagged leakyManifest spelledListing =
      ["left-pad", "@types/react"] := by decide +kernel
  have hold : installedProject.tree.get? ["p", "package.json"] = some (.file [] false) := by decide
  have hmanifests : ∀ dir, editedProject.holdsManifest dir = installedProject.holdsManifest dir :=
    holdsManifest_overwrite hold rfl rfl
  have hone := leakyManifest.promoted_promote [] [("left-pad", "1")] ["left-pad"] (by decide)
  have hboth := leakyManifest.promoted_promote [("left-pad", "1")] [("@types/react", "1")] []
    (List.nil_subset _)
  refine ⟨hflagged, ?_, ?_⟩
  · rw [(flagged_promoted _ _ spelledListing hone hmanifests).1, hflagged]
    decide
  · apply (flagged_promoted installedProject _ spelledListing hboth hmanifests).2
    rw [hflagged]
    decide

end World

end TypeLeak
