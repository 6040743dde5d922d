import Mathlib.Data.List.Sort
import TypeLeak.Proofs.FoundSources

/-!
# The order in which a search finds sources

A search goes through each directory in the order of the names there, and through a directory below at
the place of its name.  So the sources come in the order of their paths, where paths are compared
component by component and components byte by byte.  This is not the order of the texts, in which a
dot comes before a slash.

What is listed is how these paths are shown.  Two paths that are not UTF-8 can be shown alike, so it
is the paths that are in order, and the list itself only where nothing is lost.

## Key results

- `names_pairwise`: the names in a directory are in order, each once
- `findingsFrom_pairwise`: so is what a search finds
- `sources_eq_map_lossy`: the sources are the paths that were found, as they are shown
- `sources_pairwise`: the order of these paths, which leaves only one order for them
-/

namespace TypeLeak

namespace FileTree

variable {t : FileTree}

/-! ## Names in order -/

/-- A tree has one entry for each location. -/
def IsMap (t : FileTree) : Prop := (t.entries.map Prod.fst).Nodup

instance (t : FileTree) : Decidable t.IsMap := inferInstanceAs (Decidable (List.Nodup _))

/-- The names in a directory are in order, each once. -/
theorem names_pairwise (h : t.IsMap) (dir : Location) : (t.names dir).Pairwise (· < ·) := by
  -- they are sorted, and none comes twice, since a location has one entry
  have hsorted : (t.names dir).Pairwise fun a b => decide (a ≤ b) = true := by
    refine List.pairwise_mergeSort (fun a b c hab hbc => ?_) (fun a b => ?_) _
    · exact decide_eq_true (List.le_trans (of_decide_eq_true hab) (of_decide_eq_true hbc))
    · have htotal : a ≤ b ∨ b ≤ a := List.le_total a.bytes b.bytes
      simpa using htotal
  have hnodup : (t.names dir).Nodup := by
    unfold names
    rw [(List.mergeSort_perm _ _).nodup_iff, List.Nodup, List.pairwise_filterMap]
    refine (List.pairwise_map.1 h).imp fun {x y} hne name hx name' hy heq => hne ?_
    -- no two entries have the same location, which a name tells
    rw [eq_concat_of_name hx, eq_concat_of_name hy, heq]
  refine (hsorted.and hnodup).imp fun ⟨hle, hne⟩ => ?_
  exact List.not_le.1 fun hge => hne (OsText.ext (List.le_antisymm (of_decide_eq_true hle) hge))

/-- Names that stand in order among the entries are in order as they are. -/
theorem names_eq {dir : Location} {names : List OsText}
    (h : t.entries.filterMap (fun e => Location.nameIn dir e.1) = names)
    (hsorted : names.Pairwise (· ≤ ·)) : t.names dir = names := by
  unfold FileTree.names
  rw [h]
  exact List.mergeSort_of_pairwise (hsorted.imp fun hle => by simpa using hle)

end FileTree

namespace World

variable {w : World} {filter : SearchFilter} {s : SearchState}

/-! ## Findings in order -/

/-- What is found by a name lies behind that name. -/
theorem exists_rest_of_mem_findingsBy {names found : List OsText} {name : OsText}
    (h : Finding.source found ∈ w.findingsBy filter s names name) :
    ∃ rest, found = names ++ name :: rest := by
  -- the name is the source itself, or that of the directory gone into
  rcases source_mem_findingsBy_iff.1 h with ⟨-, rfl⟩ | ⟨sub, -, hmem⟩
  · exact ⟨[], rfl⟩
  · obtain ⟨rest, -, rfl⟩ := source_mem_findingsFrom_iff_walked.1 hmem
    exact ⟨rest, by simp⟩

end World

/-- Of two findings that are sources, the first comes before the second by its names. -/
def Finding.Before (x y : Finding) : Prop :=
  ∀ names names', x = .source names → y = .source names' → names < names'

namespace World

variable {w : World} {filter : SearchFilter} {s : SearchState}

/-- What a search finds is in order. -/
theorem findingsFrom_pairwise (h : w.tree.IsMap) (names : List OsText) :
    (w.findingsFrom filter s names).Pairwise Finding.Before := by
  -- a directory that is entered has its findings in order already
  induction s using (wellFounded_follows w filter).induction generalizing names with
  | _ s ih =>
    rw [findingsFrom_eq, List.pairwise_flatMap]
    refine ⟨fun name _ => ?_, (FileTree.names_pairwise h s.dir).imp fun {a b} hlt => ?_⟩
    · rw [findingsBy_eq_choice]
      cases hchoice : w.choice filter s name with
      | leave => exact .nil
      | report found => exact List.pairwise_singleton _ _
      | enter sub => exact ih _ ⟨name, sub, enters_of_choice hchoice, rfl⟩ _
    · -- the names of the directory decide, whatever comes behind them
      rintro x hx y hy found found' rfl rfl
      obtain ⟨rest, rfl⟩ := exists_rest_of_mem_findingsBy hx
      obtain ⟨rest', rfl⟩ := exists_rest_of_mem_findingsBy hy
      exact List.append_left_lt (List.cons_lt_cons_iff.2 (.inl hlt))

/-- What is found from a root is in order. -/
theorem findings_pairwise (h : w.tree.IsMap) (root : Path) :
    (w.findings root filter).Pairwise Finding.Before := by
  unfold findings
  split
  · exact .nil
  · split
    · rename_i dir _
      split
      · exact findingsFrom_pairwise (s := ⟨[dir], dir, root⟩) h []
      · exact List.pairwise_singleton _ _
    · split
      · exact List.pairwise_singleton _ _
      · exact .nil
    · exact .nil
    · exact List.pairwise_singleton _ _

/-- The names of what is found from a root are proper. -/
theorem isProper_of_source_mem_findings (hw : w.tree.WellFormed) {root : Path} {names : Location}
    (h : Finding.source names ∈ w.findings root filter) : names.IsProper := by
  unfold findings at h
  -- only a root that is a directory has names behind it
  split at h
  · exact nomatch h
  · split at h
    · rename_i dir hroot
      split at h
      · have harrived : w.Arrived ⟨[dir], dir, root⟩ := hroot
        have hmem : Finding.source names ∈ w.findingsFrom filter ⟨[dir], dir, root⟩ [] := h
        obtain ⟨_, hwalked, rfl⟩ := source_mem_findingsFrom_iff_walked.1 hmem
        exact fun name hname => (((walked_iff hw harrived).1 hwalked).1 name hname).1
      · exact nomatch List.mem_singleton.1 h
    · split at h
      · cases List.mem_singleton.1 h
        exact nofun
      · exact nomatch h
    · exact nomatch h
    · exact nomatch List.mem_singleton.1 h

end World

/-! ## Paths in order -/

namespace Path

/-- The bytes of the components of a path. -/
def componentBytes (p : Path) : List (List UInt8) := p.components.map fun c => c.text.bytes

/-- The path `p` comes before `q`, component by component and byte by byte. -/
def Precedes (p q : Path) : Prop := p.componentBytes < q.componentBytes

instance (p q : Path) : Decidable (p.Precedes q) :=
  inferInstanceAs (Decidable (p.componentBytes < q.componentBytes))

/-- Proper names joined to a path are the components of it. -/
theorem componentBytes_ofSegments {names : Location} (h : names.IsProper) :
    (Path.mk (.ofSegments names)).componentBytes = names.map OsText.bytes := by
  -- a proper name is one component: no dots in it, and no slash
  have hcomponents : (Path.mk (.ofSegments names)).components = names.map .name := by
    cases names with
    | nil => rfl
    | cons first rest =>
      have hfirst := h first (List.mem_cons_self ..)
      unfold components
      rw [split_eq, OsText.segments_ofSegments (by simp) fun name hname => (h name hname).2.2.2,
        leadOf_bare hfirst.1 hfirst.2.1]
      exact Location.filterMap_ofSegment h
  unfold componentBytes
  rw [hcomponents, List.map_map]
  rfl

/-- Names in order make paths in order. -/
theorem precedes_ofSegments {names names' : Location} (h : names.IsProper) (h' : names'.IsProper)
    (hlt : names < names') : Precedes ⟨.ofSegments names⟩ ⟨.ofSegments names'⟩ := by
  unfold Precedes
  rw [componentBytes_ofSegments h, componentBytes_ofSegments h']
  clear h h'
  -- both orders are lexicographic, so they agree case by case
  induction hlt with
  | nil => exact List.nil_lt_cons _ _
  | cons _ ih => exact List.cons_lt_cons_iff.2 (.inr ⟨rfl, ih⟩)
  | rel hlt => exact List.cons_lt_cons_iff.2 (.inl hlt)

instance : Std.Irrefl Precedes := ⟨fun p => List.lt_irrefl p.componentBytes⟩

instance : Std.Antisymm Precedes := ⟨fun _ _ hpq hqp => absurd hqp (List.lt_asymm hpq)⟩

end Path

/-- The path of a source from the search's root. -/
def Finding.path? : Finding → Option Path
  | .source names => some ⟨.ofSegments names⟩
  | .broken _ => none

namespace World

/-- The paths of the sources that a search finds. -/
def foundPaths (w : World) (root : Path) (filter : SearchFilter) : List Path :=
  (w.findings root filter).filterMap Finding.path?

/-- The sources are listed as these paths are shown. -/
theorem sources_eq_map_lossy (w : World) (root : Path) (filter : SearchFilter) :
    w.sources root filter = (w.foundPaths root filter).map Path.lossy := by
  unfold sources foundPaths
  rw [List.map_filterMap]
  refine List.filterMap_congr fun finding _ => ?_
  cases finding with
  | source names => exact congrArg some (OsText.lossy_ofSegments names).symm
  | broken names => rfl

/-- The paths that a search finds are in order. -/
theorem foundPaths_pairwise {w : World} (hw : w.tree.WellFormed) (hmap : w.tree.IsMap) (root : Path)
    (filter : SearchFilter) : (w.foundPaths root filter).Pairwise Path.Precedes := by
  unfold foundPaths
  rw [List.pairwise_filterMap]
  refine (findings_pairwise hmap root).imp_of_mem fun {x y} hx hy hlt p hp q hq => ?_
  cases x with
  | broken names => exact nomatch hp
  | source names =>
    cases y with
    | broken names' => exact nomatch hq
    | source names' =>
      cases hp
      cases hq
      exact Path.precedes_ofSegments (isProper_of_source_mem_findings hw hx)
        (isProper_of_source_mem_findings hw hy) (hlt _ _ rfl rfl)

/-- The sources that a search finds are listed, one for one, as their paths are shown, and these are
    in order, each once; no other list of the same paths is in order.  Where the paths are UTF-8, the
    same holds of the list itself. -/
theorem sources_pairwise (w : World) (root : Path) (filter : SearchFilter)
    (hw : w.tree.WellFormed) (hmap : w.tree.IsMap) :
    w.sources root filter = (w.foundPaths root filter).map Path.lossy ∧
      (w.foundPaths root filter).Pairwise Path.Precedes ∧ (w.foundPaths root filter).Nodup ∧
      (∀ paths : List Path, paths.Pairwise Path.Precedes →
        (∀ p, p ∈ paths ↔ p ∈ w.foundPaths root filter) → paths = w.foundPaths root filter) ∧
      ((∀ p ∈ w.foundPaths root filter, p.text.IsUtf8) →
        (w.sources root filter).Pairwise (fun p q : String => Path.Precedes ⟨p⟩ ⟨q⟩) ∧
          (w.sources root filter).Nodup ∧
          ∀ paths : List String, paths.Pairwise (fun p q : String => Path.Precedes ⟨p⟩ ⟨q⟩) →
            (∀ p, p ∈ paths ↔ p ∈ w.sources root filter) → paths = w.sources root filter) := by
  have hlisted := sources_eq_map_lossy w root filter
  have hsorted := foundPaths_pairwise hw hmap root filter
  refine ⟨hlisted, hsorted, hsorted.nodup,
    fun paths hpaths hmem => hpaths.eq_of_mem_iff hsorted hmem, fun hutf8 => ?_⟩
  have hirrefl : Std.Irrefl fun p q : String => Path.Precedes ⟨p⟩ ⟨q⟩ :=
    ⟨fun p => List.lt_irrefl (Path.mk p).componentBytes⟩
  have hantisymm : Std.Antisymm fun p q : String => Path.Precedes ⟨p⟩ ⟨q⟩ :=
    ⟨fun p q hpq hqp => absurd hqp (List.lt_asymm hpq)⟩
  -- a path that is UTF-8 is what it is shown as
  have hshown : (w.sources root filter).Pairwise fun p q : String => Path.Precedes ⟨p⟩ ⟨q⟩ := by
    rw [hlisted, List.pairwise_map]
    refine hsorted.imp_of_mem fun {p q} hp hq hlt => ?_
    have hp' : Path.mk p.lossy = p := congrArg Path.mk (hutf8 p hp)
    have hq' : Path.mk q.lossy = q := congrArg Path.mk (hutf8 q hq)
    rwa [hp', hq']
  exact ⟨hshown, hshown.nodup, fun paths hpaths hmem => hpaths.eq_of_mem_iff hshown hmem⟩

/-- A source in a directory, and one beside it whose name goes on where that of the directory ends. -/
def siblings : World :=
  .inside (.ofEntries [(["p"], .directory), (["p", "a"], .directory),
    (["p", "a", "b.ts"], .file [] false), (["p", "a.ts"], .file [] false)]) []

/-- What is found of the two, in the order in which it is found. -/
theorem findings_siblings :
    siblings.findings ⟨"p"⟩ .standard = [.source ["a", "b.ts"], .source ["a.ts"]] := by
  have hroot : siblings.resolve ⟨"p"⟩ = .ok (.present ["p"] .directory) := by decide +kernel
  have houter : siblings.tree.names ["p"] = (["a", "a.ts"] : Location) :=
    FileTree.names_eq (by decide) (by decide)
  have hinner : siblings.tree.names ["p", "a"] = (["b.ts"] : Location) :=
    FileTree.names_eq (by decide) (by decide)
  have henter : siblings.choice .standard ⟨[["p"]], ["p"], ⟨"p"⟩⟩ "a" = .enter ["p", "a"] := rfl
  rw [findings_of_directory hroot rfl (by decide), findingsFrom_eq]
  show (siblings.tree.names ["p"]).flatMap _ = _
  rw [houter, List.flatMap_cons, findingsBy_eq_choice, henter]
  dsimp only
  -- the directory is gone through at the place of its name
  rw [findingsFrom_eq]
  show (siblings.tree.names ["p", "a"]).flatMap _ ++ _ = _
  rw [hinner]
  rfl

/-- Both are found, and the one in the directory comes first, although its text is the greater one. -/
theorem sources_pairwise_siblings :
    siblings.sources ⟨"p"⟩ .standard = ["a/b.ts", "a.ts"] ∧
      (siblings.sources ⟨"p"⟩ .standard).Pairwise (fun p q : String => Path.Precedes ⟨p⟩ ⟨q⟩) ∧
      "a.ts" < "a/b.ts" := by
  have hw : siblings.tree.WellFormed := by decide
  have hfound : siblings.foundPaths ⟨"p"⟩ .standard = [⟨"a/b.ts"⟩, ⟨"a.ts"⟩] := by
    unfold foundPaths
    rw [findings_siblings]
    decide
  obtain ⟨hlisted, -, -, -, hutf8⟩ := sources_pairwise siblings ⟨"p"⟩ .standard hw (by decide)
  rw [hfound] at hlisted hutf8
  exact ⟨hlisted.trans (by decide), (hutf8 (by decide)).1, by decide⟩

/-- Two sources whose names are not UTF-8. -/
def rawSiblings : World :=
  .inside (.ofEntries [(["p"], .directory),
    (["p", ⟨[0x61, 0xFE, 0x2E, 0x74, 0x73]⟩], .file [] false),
    (["p", ⟨[0x61, 0xFF, 0x2E, 0x74, 0x73]⟩], .file [] false)]) []

/-- They are shown alike, so the same text is listed twice. -/
theorem sources_rawSiblings :
    rawSiblings.tree.WellFormed ∧ rawSiblings.tree.IsMap ∧
      rawSiblings.sources ⟨"p"⟩ .standard = ["a\ufffd.ts", "a\ufffd.ts"] ∧
      ¬ (rawSiblings.sources ⟨"p"⟩ .standard).Pairwise
        (fun p q : String => Path.Precedes ⟨p⟩ ⟨q⟩) := by
  have hroot : rawSiblings.resolve ⟨"p"⟩ = .ok (.present ["p"] .directory) := by decide +kernel
  -- the names differ, and are sorted by the bytes that do not decode
  have hnames : rawSiblings.tree.names ["p"] =
      [⟨[0x61, 0xFE, 0x2E, 0x74, 0x73]⟩, ⟨[0x61, 0xFF, 0x2E, 0x74, 0x73]⟩] :=
    FileTree.names_eq (by decide) (by decide)
  have hlisted : rawSiblings.sources ⟨"p"⟩ .standard = ["a\ufffd.ts", "a\ufffd.ts"] := by
    unfold sources
    rw [findings_of_directory hroot rfl (by decide), findingsFrom_eq]
    show ((rawSiblings.tree.names ["p"]).flatMap _).filterMap _ = _
    rw [hnames]
    rfl
  refine ⟨by decide, by decide, hlisted, ?_⟩
  rw [hlisted]
  decide

end World

end TypeLeak
