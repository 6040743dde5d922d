import TypeLeak.Layout

/-! # The name of an installed package

A package is named by where it is installed: by what comes after the last directory of installed
packages in the path of its root.

* `afterLast_eq_none`   there is nothing after a marker that does not occur
-/

namespace TypeLeak.Package

/-- What follows the last occurrence of `marker`. -/
def afterLast (marker : List Char) : List Char → Option (List Char)
  | [] => none
  | c :: cs =>
    -- an occurrence further on is later
    match afterLast marker cs with
    | some rest => some rest
    | none => if marker.isPrefixOf (c :: cs) then some ((c :: cs).drop marker.length) else none

/-- There is nothing after a marker that does not occur. -/
theorem afterLast_eq_none {marker : List Char} (hm : marker ≠ []) (cs : List Char) :
    afterLast marker cs = none ↔ ¬ marker <:+: cs := by
  induction cs with
  | nil => simp [afterLast, hm]
  | cons c cs ih =>
    simp only [afterLast, List.infix_cons_iff]
    cases h : afterLast marker cs with
    | some rest =>
      have : marker <:+: cs := by
        refine Decidable.of_not_not fun hn => ?_
        rw [ih.2 hn] at h
        simp at h
      simp [this]
    | none =>
      have := ih.1 h
      by_cases hp : marker.isPrefixOf (c :: cs) = true
      · simp [hp, List.isPrefixOf_iff_prefix.1 hp]
      · have hp' : ¬ marker <+: c :: cs := fun hx => hp (List.isPrefixOf_iff_prefix.2 hx)
        simp [hp, hp', this]

/-- A directory of installed packages inside a path. -/
def marker : List Char := ("/" ++ Layout.packageDirectory ++ "/").toList

/-- The name of the package whose root is given; a package that is not installed goes by its
    whole path. -/
def nameOf (root : Path) : String :=
  match afterLast marker root.lossy.toList with
  | some rest => String.ofList rest
  | none => root.lossy

end TypeLeak.Package
