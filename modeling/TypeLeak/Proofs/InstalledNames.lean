import Mathlib.Logic.Basic
import TypeLeak.Package.Name
import TypeLeak.Proofs.AsciiText

/-!
# Names behind directories of installed packages

A package goes by what follows the last directory of installed packages in its path, or by the
whole path if there is none.  The path is searched as it is shown, where slashes and the names of
such directories are themselves and nothing else looks like them.  One such directory can begin with
the slash that another one ends with, so whether a name holds a further one is asked of the name
with a slash before it.

## Key results

- `afterLast_marker_eq_some_iff`: what follows the last marker of a text
- `nameOf_installedIn`: what is installed under a name goes by that name
- `exists_installedIn`: a path with a marker leads to something that is installed
- `nameOf_behind_last`: how every path is named
-/

namespace TypeLeak.Package

/-- A marker is a directory of installed packages between slashes. -/
theorem marker_eq : marker = '/' :: (Layout.packageDirectory.toList ++ ['/']) := rfl

/-! ## The last marker of a text -/

/-- Nothing begins with a slash before the first slash. -/
private theorem afterLast_append_of_not_mem {marker word : List Char} (h : '/' ∉ word)
    (rest : List Char) :
    afterLast ('/' :: marker) (word ++ rest) = afterLast ('/' :: marker) rest := by
  induction word with
  | nil => rfl
  | cons c word ih =>
    rw [List.mem_cons, not_or] at h
    have hbegins : ('/' :: marker).isPrefixOf (c :: (word ++ rest)) = false := by
      simp [List.isPrefixOf, h.1]
    rw [List.cons_append, afterLast, ih h.2, hbegins]
    cases afterLast ('/' :: marker) rest <;> rfl

/-- Behind the beginning of a marker, only the slash at its end could begin another one. -/
private theorem afterLast_behind_slash (rest : List Char) :
    afterLast marker (Layout.packageDirectory.toList ++ '/' :: rest) =
      afterLast marker ('/' :: rest) := by
  have hslash : '/' ∉ Layout.packageDirectory.toList := by decide
  exact afterLast_append_of_not_mem hslash _

/-- A marker and what follows it begin with the slash of the marker. -/
private theorem marker_append (rest : List Char) :
    marker ++ rest = '/' :: (Layout.packageDirectory.toList ++ '/' :: rest) := by
  simp [marker_eq]

/-- What follows a marker that does not come again. -/
theorem afterLast_marker (front : List Char) {rest : List Char}
    (h : afterLast marker ('/' :: rest) = none) :
    afterLast marker (front ++ marker ++ rest) = some rest := by
  induction front with
  | nil =>
    have hnone : afterLast marker (Layout.packageDirectory.toList ++ '/' :: rest) = none := by
      rw [afterLast_behind_slash, h]
    have hbegins : marker.isPrefixOf (marker ++ rest) = true :=
      List.isPrefixOf_iff_prefix.2 (List.prefix_append _ _)
    rw [List.nil_append, marker_append, afterLast, hnone, ← marker_append]
    simp [hbegins]
  | cons c front ih =>
    -- the marker is found in the rest of the text, before one here would be looked for
    rw [List.cons_append, List.cons_append, afterLast, ih]

/-- Where something follows the last marker, the marker stands before it and does not come again. -/
theorem of_afterLast_marker {cs rest : List Char} (h : afterLast marker cs = some rest) :
    ∃ front, cs = front ++ marker ++ rest ∧ afterLast marker ('/' :: rest) = none := by
  induction cs with
  | nil => exact nomatch h
  | cons c cs ih =>
    rw [afterLast] at h
    -- a marker further on comes before one that begins here
    cases hcs : afterLast marker cs with
    | some later =>
      rw [hcs] at h
      obtain ⟨front, hfront, hnone⟩ := ih (hcs.trans h)
      exact ⟨c :: front, by rw [hfront]; rfl, hnone⟩
    | none =>
      rw [hcs] at h
      by_cases hbegins : marker.isPrefixOf (c :: cs) = true
      · obtain ⟨back, hback⟩ := List.isPrefixOf_iff_prefix.1 hbegins
        have hrest : back = rest := by
          simpa [hbegins, ← hback] using h
        subst hrest
        rw [marker_append, List.cons.injEq] at hback
        obtain ⟨rfl, rfl⟩ := hback
        -- this is the last marker, so none begins with the slash at its end
        rw [afterLast_behind_slash] at hcs
        exact ⟨[], (marker_append back).symm, hcs⟩
      · simp [hbegins] at h

/-- What follows the last marker of a text. -/
theorem afterLast_marker_eq_some_iff {cs rest : List Char} :
    afterLast marker cs = some rest ↔
      (∃ front, cs = front ++ marker ++ rest) ∧ ¬ marker <:+: '/' :: rest := by
  -- that no marker comes again is the same as that none is found
  rw [← afterLast_eq_none (by decide)]
  constructor
  · intro h
    obtain ⟨front, hfront, hnone⟩ := of_afterLast_marker h
    exact ⟨⟨front, hfront⟩, hnone⟩
  · rintro ⟨⟨front, rfl⟩, hnone⟩
    exact afterLast_marker front hnone

/-! ## Names -/

/-- A directory of installed packages occurs in a text. -/
def Marked (text : String) : Prop := marker <:+: text.toList

/-- With a slash before it a name is searched for markers like the rest of a path. -/
theorem marked_slash_iff {name : String} : Marked ("/" ++ name) ↔ marker <:+: '/' :: name.toList := by
  simp [Marked]

/-- Where a package is installed, under a name that may hold slashes. -/
def installedIn (above name : String) : Path :=
  ⟨.ofString (above ++ ("/" ++ Layout.packageDirectory ++ "/") ++ name)⟩

/-- Such a path is shown as it is put together. -/
theorem lossy_installedIn (above name : String) :
    (installedIn above name).lossy = above ++ ("/" ++ Layout.packageDirectory ++ "/") ++ name :=
  OsText.lossy_ofString _

/-- The marker stands between what is above and the name. -/
theorem toList_installedIn (above name : String) :
    (installedIn above name).lossy.toList = above.toList ++ marker ++ name.toList := by
  simp [lossy_installedIn, marker]

/-- What is installed has a marker in its path. -/
theorem marked_installedIn (above name : String) : Marked (installedIn above name).lossy := by
  unfold Marked
  rw [toList_installedIn]
  exact List.infix_append _ _ _

variable {p : Path}

/-- A path is named by what it is shown as. -/
theorem nameOf_congr {q : Path} (h : p.lossy = q.lossy) : nameOf p = nameOf q := by
  unfold nameOf
  rw [h]

/-- What is not installed goes by its whole path. -/
theorem nameOf_of_not_marked (h : ¬ Marked p.lossy) : nameOf p = p.lossy := by
  unfold nameOf
  rw [(afterLast_eq_none (by decide) _).2 h]

/-- What is installed under a name goes by that name. -/
theorem nameOf_installedIn (above : String) {name : String} (h : ¬ Marked ("/" ++ name)) :
    nameOf (installedIn above name) = name := by
  have hlast : afterLast marker (installedIn above name).lossy.toList = some name.toList := by
    rw [afterLast_marker_eq_some_iff, toList_installedIn, ← marked_slash_iff]
    exact ⟨⟨_, rfl⟩, h⟩
  unfold nameOf
  rw [hlast]
  exact String.ofList_toList

/-- A path in which a directory of installed packages occurs leads to something that is installed
    in the last of them. -/
theorem exists_installedIn (h : Marked p.lossy) :
    ∃ above name, p.lossy = (installedIn above name).lossy ∧ ¬ Marked ("/" ++ name) := by
  cases hlast : afterLast marker p.lossy.toList with
  | none => exact absurd h ((afterLast_eq_none (by decide) _).1 hlast)
  | some rest =>
    obtain ⟨⟨front, hfront⟩, hnone⟩ := afterLast_marker_eq_some_iff.1 hlast
    -- the text is cut at its last marker and put together again
    have hshown : p.lossy = (installedIn (String.ofList front) (String.ofList rest)).lossy := by
      apply String.toList_inj.1
      rw [hfront, toList_installedIn, String.toList_ofList, String.toList_ofList]
    refine ⟨String.ofList front, String.ofList rest, hshown, ?_⟩
    rwa [marked_slash_iff, String.toList_ofList]

/-- A path is named in exactly one of two ways: by itself, if no directory of installed packages
    occurs in it, and else by what follows the last of them.  So what follows one of them is the
    name exactly if there is none further on, also none that begins with the same slash. -/
theorem nameOf_behind_last (p : Path) :
    Xor (¬ Marked p.lossy ∧ nameOf p = p.lossy)
        (∃ above name, p.lossy = (installedIn above name).lossy ∧ nameOf p = name ∧
          ¬ Marked ("/" ++ name)) ∧
      ∀ above name, nameOf (installedIn above name) = name ↔ ¬ Marked ("/" ++ name) := by
  have hinstalled : ∀ {q : Path}, Marked q.lossy →
      ∃ above name, q.lossy = (installedIn above name).lossy ∧ nameOf q = name ∧
        ¬ Marked ("/" ++ name) := by
    intro q hq
    obtain ⟨above, name, hshown, hnone⟩ := exists_installedIn hq
    have hname := (nameOf_congr hshown).trans (nameOf_installedIn above hnone)
    exact ⟨above, name, hshown, hname, hnone⟩
  refine ⟨?_, fun above name => ⟨fun hname => ?_, nameOf_installedIn above⟩⟩
  · by_cases hmarked : Marked p.lossy
    · exact .inr ⟨hinstalled hmarked, fun hwhole => hwhole.1 hmarked⟩
    · refine .inl ⟨⟨hmarked, nameOf_of_not_marked hmarked⟩, ?_⟩
      rintro ⟨above, name, hshown, -⟩
      exact hmarked (hshown ▸ marked_installedIn above name)
  · -- the name is what follows the last of them, so none comes after it
    obtain ⟨_, _, -, hlast, hnone⟩ := hinstalled (marked_installedIn above name)
    rwa [← hname, hlast]

/-- Two directories of installed packages that share a slash. -/
example : nameOf ⟨"/p/node_modules/node_modules/@types/react"⟩ = "@types/react" := by decide

end TypeLeak.Package
