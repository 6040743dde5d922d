import TypeLeak.Manifest
import TypeLeak.Package.Name
import TypeLeak.Package.Root

/-! # Packages that are only development dependencies

The files that the compiler loads lie in packages.  Those packages that the manifest declares
only as development dependencies are flagged, in the order in which they are first reached.

* `keepFirstPaths_eq`   paths are told apart by their components
-/

namespace TypeLeak

namespace Package

/-- The first of each group of items that are the same. -/
def keepFirst {α : Type} (same : α → α → Bool) : List α → List α
  | [] => []
  | x :: xs => x :: (keepFirst same xs).filter fun y => !same x y

private theorem keepFirst_map {α β : Type} {same : α → α → Bool} {same' : β → β → Bool} (f : α → β)
    (h : ∀ x y, same' (f x) (f y) = same x y) (xs : List α) :
    keepFirst same' (xs.map f) = (keepFirst same xs).map f := by
  induction xs with
  | nil => rfl
  | cons x xs ih => simp [keepFirst, ih, List.filter_map, Function.comp_def, h]

/-- The first spelling of each of the paths. -/
def keepFirstPaths (ps : List Path) : List Path :=
  (keepFirst Path.Indexed.isSame (ps.map .ofPath)).map Path.Indexed.path

/-- Paths are told apart by their components. -/
theorem keepFirstPaths_eq (ps : List Path) : keepFirstPaths ps = keepFirst Path.isSame ps := by
  have h := keepFirst_map Path.Indexed.ofPath (fun p q => Path.Indexed.isSame_eq (.ofPath p) (.ofPath q)) ps
  simp [keepFirstPaths, h, Function.comp_def, Path.Indexed.ofPath]

end Package

namespace World

open Package

/-- The misclassified packages that the listed files lie in. -/
def flagged (w : World) (m : Manifest) (files : List String) : List String :=
  let dirs := keepFirstPaths (files.filterMap fun file => (Path.mk (.ofString file)).parent)
  let roots := keepFirstPaths ((w.packageRoots .empty dirs).1.filterMap id)
  keepFirst (· == ·) ((roots.map nameOf).filter m.isDevOnly)

end World

end TypeLeak
