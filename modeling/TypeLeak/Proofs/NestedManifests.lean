import TypeLeak.Proofs.InstalledNames
import TypeLeak.Proofs.PackageListing

/-!
# Packages with manifests inside

A package can hold manifests below its root, as those do that come in several module formats.  A
file belongs to the nearest manifest above it, and what lies at that manifest is named by its whole
path behind the last directory of installed packages.  So a file below a manifest inside a package
does not count for the package, but for a part of it that no manifest declares.

## Key results

- `nameOf_path`: a package is named by what follows the last directory of installed packages
- `nearestPackage_append`: the nearest manifest above a file is that of the package, or one inside
- `mem_flagged_iff_no_manifest_inside`: a package is flagged for each of its files exactly if no
  manifest lies in between
-/

namespace TypeLeak

open OsText (ofString lossy)

/-! ## Names -/

/-- Names that are text. -/
def Location.ofNames (names : List String) : Location := names.map OsText.ofString

/-- A name is among the locations' names exactly if it is among the texts. -/
theorem Location.mem_ofNames {names : List String} {name : String} :
    .ofString name ∈ ofNames names ↔ name ∈ names := by
  simp [ofNames]

/-- Names that are texts are shown as they are. -/
theorem Location.map_lossy_ofNames (names : List String) :
    (ofNames names).map OsText.lossy = names := by
  simp [ofNames, Function.comp_def]

/-- Where something lies in the package of a name that is installed in a directory. -/
def Location.inPackage (above : Location) (name : List String) (inner : Location) : Location :=
  above ++ ofString Layout.packageDirectory :: (ofNames name ++ inner)

namespace Package

/-- Only the directory of installed packages is shown as it. -/
theorem lossy_eq_packageDirectory_iff {name : OsText} :
    name.lossy = Layout.packageDirectory ↔ name = Layout.packageDirectory :=
  OsText.lossy_eq_iff_of_ascii (by decide)

/-- A marker in the text of names is one of the names. -/
private theorem mem_dropLast_of_marker {names : Location} (hne : names ≠ [])
    (hnames : ∀ name ∈ names, OsText.slashByte ∉ name.bytes)
    (h : marker <:+: '/' :: ("/".intercalate (names.map lossy)).toList) :
    ofString Layout.packageDirectory ∈ names.dropLast := by
  obtain ⟨front, rest, htext⟩ := h
  have hstring : String.ofList front ++ "/" ++
      (Layout.packageDirectory ++ "/" ++ String.ofList rest) =
        "" ++ "/" ++ "/".intercalate (names.map lossy) := by
    apply String.toList_inj.1
    simpa [marker_eq] using htext
  have hslash : OsText.slashByte ∉ (ofString Layout.packageDirectory).bytes := by decide
  have hshown : ∀ piece ∈ (names.map lossy).map ofString, OsText.slashByte ∉ piece.bytes := by
    intro piece hpiece
    simp only [List.map_map, List.mem_map, Function.comp_apply] at hpiece
    obtain ⟨name, hname, rfl⟩ := hpiece
    rw [OsText.slash_mem_ofString_lossy_iff]
    exact hnames name hname
  -- the name stands between other segments
  have hsegments : (ofString (String.ofList front)).segments ++
      ofString Layout.packageDirectory :: (ofString (String.ofList rest)).segments =
        .empty :: (names.map lossy).map ofString := by
    have hsplit := congrArg (fun s => (ofString s).segments) hstring
    have hone : ofString "/" = .slash := rfl
    simp only [OsText.ofString_append, OsText.ofString_intercalate, hone,
      OsText.segments_append_slash, OsText.segments_of_not_mem hslash,
      OsText.segments_ofSegments (by simpa using hne) hshown] at hsplit
    exact hsplit
  have hdrop := congrArg List.dropLast hsegments
  rw [List.dropLast_append_cons, List.dropLast_cons_of_ne_nil (OsText.segments_ne_nil _),
    List.dropLast_cons_of_ne_nil (by simpa using hne)] at hdrop
  have hmem : ofString Layout.packageDirectory ∈
      .empty :: ((names.map lossy).map ofString).dropLast := by
    rw [← hdrop]
    simp
  replace hmem := (List.mem_cons.1 hmem).resolve_left (by decide)
  rw [← List.map_dropLast, ← List.map_dropLast, List.map_map] at hmem
  obtain ⟨name, hname, heq⟩ := List.mem_map.1 hmem
  rwa [lossy_eq_packageDirectory_iff.1 (OsText.ofString_inj.1 heq)] at hname

/-- A package is named by what follows the last directory of installed packages. -/
theorem nameOf_path {front back : Location}
    (h : Location.IsProper (front ++ ofString Layout.packageDirectory :: back)) (hne : back ≠ [])
    (hback : ofString Layout.packageDirectory ∉ back.dropLast) :
    nameOf (Location.path (front ++ ofString Layout.packageDirectory :: back)) =
      "/".intercalate (back.map lossy) := by
  have hnames : ∀ name ∈ back, OsText.slashByte ∉ name.bytes := fun name hname =>
    (h name (List.mem_append_right _ (List.mem_cons_of_mem _ hname))).2.2.2
  have hnone : ¬ Marked ("/" ++ "/".intercalate (back.map lossy)) := by
    rw [marked_slash_iff]
    exact fun hfound => hback (mem_dropLast_of_marker hne hnames hfound)
  have hshown : back.map lossy ≠ [] := by simpa using hne
  -- what is spelled before the marker
  have hpath : ∃ above,
      (Location.path (front ++ ofString Layout.packageDirectory :: back)).lossy =
        (installedIn above ("/".intercalate (back.map lossy))).lossy := by
    by_cases hfront : front = []
    · refine ⟨"", ?_⟩
      simp [hfront, Location.lossy_path, lossy_installedIn,
        String.intercalate_cons_of_ne_nil hshown, String.append_assoc]
    · have hfront' : front.map lossy ≠ [] := by simpa using hfront
      refine ⟨"/" ++ "/".intercalate (front.map lossy), ?_⟩
      simp [Location.lossy_path, lossy_installedIn, String.intercalate_append_of_ne_nil hfront',
        String.intercalate_cons_of_ne_nil hshown, String.append_assoc]
  obtain ⟨above, hpath⟩ := hpath
  rw [nameOf_congr hpath, nameOf_installedIn above hnone]

end Package

namespace World

open Package

variable {w : World}

/-! ## The nearest manifest -/

/-- A location directly contains a manifest. -/
def HoldsManifestAt (w : World) (dir : Location) : Prop :=
  w.isFile (Location.path (dir ++ [.ofString Layout.manifestFile])) = true

instance (w : World) (dir : Location) : Decidable (w.HoldsManifestAt dir) :=
  inferInstanceAs (Decidable (_ = true))

/-- One directory further down, its own manifest is the nearest; else it is the one from above. -/
theorem nearestPackage_concat (dir : Location) (name : OsText) :
    w.nearestPackage (dir ++ [name]) =
      if w.HoldsManifestAt (dir ++ [name]) then some (dir ++ [name]) else w.nearestPackage dir := by
  -- the directory itself is looked at first, and then those above it
  have hinits : (dir ++ [name]).inits = dir.inits ++ [dir ++ [name]] := by
    simp [List.inits_append]
  have hholds : decide (dir ++ [name] ≠ [] ∧
        w.isFile (Location.path (dir ++ [name] ++ [.ofString Layout.manifestFile])) = true) =
      decide (w.HoldsManifestAt (dir ++ [name])) := by
    simp [HoldsManifestAt]
  unfold nearestPackage
  rw [hinits, List.reverse_append, List.reverse_singleton, List.singleton_append, List.find?_cons,
    hholds]
  by_cases h : w.HoldsManifestAt (dir ++ [name]) <;> simp [h]

/-- The nearest manifest above what lies in a package is that of the package, or one inside. -/
theorem nearestPackage_append {root : Location} (hne : root ≠ []) (hroot : w.HoldsManifestAt root)
    (dir : Location) :
    ∃ inner, inner <+: dir ∧ w.nearestPackage (root ++ dir) = some (root ++ inner) ∧
      (inner ≠ [] → w.HoldsManifestAt (root ++ inner)) ∧
      (inner = [] → ∀ other, other <+: dir → other ≠ [] → ¬ w.HoldsManifestAt (root ++ other)) := by
  -- from the package downwards: each directory takes over from above, or has a manifest
  induction dir using List.reverseRecOn with
  | nil =>
    obtain ⟨front, last, rfl⟩ : ∃ front last, root = front ++ [last] :=
      ⟨_, _, (List.dropLast_append_getLast hne).symm⟩
    refine ⟨[], List.prefix_refl _, ?_, fun h => absurd rfl h, fun _ other hother hne' => ?_⟩
    · rw [List.append_nil, nearestPackage_concat, if_pos hroot]
    · exact absurd (List.prefix_nil.1 hother) hne'
  | append_singleton dir name ih =>
    obtain ⟨inner, hinner, hnearest, hholds, hnone⟩ := ih
    rw [← List.append_assoc, nearestPackage_concat]
    by_cases h : w.HoldsManifestAt (root ++ dir ++ [name])
    · refine ⟨dir ++ [name], List.prefix_refl _, ?_, fun _ => ?_, fun hnil => ?_⟩
      · rw [if_pos h, List.append_assoc]
      · rwa [← List.append_assoc]
      · exact absurd hnil (by simp)
    · refine ⟨inner, hinner.trans (List.prefix_append _ _), ?_, hholds, fun hnil other hother => ?_⟩
      · -- no manifest here, so what was nearest above stays so
        rw [if_neg h, hnearest]
      · rcases List.prefix_concat_iff.1 hother with rfl | hother
        · rw [← List.append_assoc]
          exact fun _ => h
        · exact hnone hnil other hother

/-! ## Flagged packages -/

/-- A package is flagged if it is only a development dependency and a file belongs to it. -/
theorem mem_flagged_iff (m : Manifest) {files : List Location}
    (hfiles : ∀ file ∈ files, file.Listable) (name : String) :
    name ∈ w.flagged m (files.map fun file => file.path.lossy) ↔
      m.OnlyDev name ∧ ∃ file ∈ files, ∃ root,
        w.nearestPackage file.dropLast = some root ∧ nameOf root.path = name := by
  rw [flagged_eq_keepFirst w m hfiles, keepFirst_eq_eraseDups, List.mem_eraseDups, List.mem_filter,
    Manifest.onlyDev_iff, and_comm]
  simp [reachedNames]

/-- What a package can be called: a name, or a scope and a name in it. -/
inductive IsPackageName : List String → Prop where
  | plain (name : String) : IsPackageName [name]
  | inScope {scope : String} (name : String) :
      scope.toList.head? = some '@' → IsPackageName [scope, name]

namespace IsPackageName

variable {name : List String} (h : IsPackageName name)

include h

theorem ne_nil : name ≠ [] := by
  cases h <;> simp

/-- The directory of installed packages is no scope. -/
theorem not_mem_dropLast : Layout.packageDirectory ∉ name.dropLast := by
  cases h with
  | plain name => simp
  | inScope name hscope =>
    rw [List.dropLast_cons_of_ne_nil (by simp), List.dropLast_singleton, List.mem_singleton]
    rintro rfl
    exact absurd hscope (by decide)

end IsPackageName

/-- What lies in a package goes by the name of the package exactly if it is the package itself. -/
theorem nameOf_eq_iff {above inner : Location} {name : List String}
    (hproper : (above.inPackage name inner).IsProper) (hname : IsPackageName name)
    (hinner : ofString Layout.packageDirectory ∉ inner) :
    nameOf (above.inPackage name inner).path = "/".intercalate name ↔ inner = [] := by
  have hshown := Location.map_lossy_ofNames name
  have hnames : ∀ n ∈ Location.ofNames name ++ inner, n ≠ .empty ∧ OsText.slashByte ∉ n.bytes :=
    fun n hn =>
      have hn := hproper n (List.mem_append_right _ (List.mem_cons_of_mem _ hn))
      ⟨hn.1, hn.2.2.2⟩
  unfold Location.inPackage at hproper ⊢
  have hdropLast : ofString Layout.packageDirectory ∉ inner.dropLast := fun hmem =>
    hinner (List.dropLast_subset _ hmem)
  constructor
  · intro heq
    by_contra hne
    by_cases hmem : Layout.packageDirectory ∈ name
    · -- a package that is called like that directory: what follows it is not its name
      have hlast : name = name.dropLast ++ [Layout.packageDirectory] := by
        have hsplit := List.dropLast_append_getLast hname.ne_nil
        rw [← hsplit, List.mem_append, List.mem_singleton] at hmem
        rw [hmem.resolve_left hname.not_mem_dropLast, hsplit]
      have hpath : above ++ ofString Layout.packageDirectory :: (Location.ofNames name ++ inner) =
          (above ++ ofString Layout.packageDirectory :: Location.ofNames name.dropLast) ++
            ofString Layout.packageDirectory :: inner := by
        conv_lhs => rw [hlast]
        simp [Location.ofNames]
      rw [hpath] at hproper heq
      rw [nameOf_path hproper hne hdropLast] at heq
      have hsame := OsText.map_lossy_eq_of_intercalate_eq
        (fun n hn => hnames n (List.mem_append_right _ hn))
        (fun n hn => hnames n (List.mem_append_left _ hn)) (heq.trans (by rw [hshown]))
      rw [hshown] at hsame
      obtain ⟨n, hn, hcalled⟩ := List.mem_map.1 (hsame ▸ hmem)
      exact hinner (lossy_eq_packageDirectory_iff.1 hcalled ▸ hn)
    · have hback : ofString Layout.packageDirectory ∉
          (Location.ofNames name ++ inner).dropLast := by
        rw [List.dropLast_append_of_ne_nil hne, List.mem_append, not_or, Location.mem_ofNames]
        exact ⟨hmem, hdropLast⟩
      rw [nameOf_path hproper (by simp [hne]) hback] at heq
      -- no part of the way in is called like that directory, so all of it is in the name
      have hsame := OsText.map_lossy_eq_of_intercalate_eq hnames
        (fun n hn => hnames n (List.mem_append_left _ hn)) (heq.trans (by rw [hshown]))
      rw [List.map_append] at hsame
      exact hne (List.map_eq_nil_iff.1 (List.append_right_eq_self.1 hsame))
  · rintro rfl
    -- nothing follows the name, and its last part may be called anything
    have hnotLast : ofString Layout.packageDirectory ∉ (Location.ofNames name).dropLast := by
      rw [Location.ofNames, ← List.map_dropLast]
      exact fun hmem => hname.not_mem_dropLast (Location.mem_ofNames.1 hmem)
    have hne : Location.ofNames name ≠ [] := by simpa [Location.ofNames] using hname.ne_nil
    rw [List.append_nil] at hproper ⊢
    rw [nameOf_path hproper hne hnotLast, hshown]

/-- A package that is only a development dependency is flagged for a file of it, in whatever
    listing, exactly if no manifest lies inside the package on the way to the file. -/
theorem mem_flagged_iff_no_manifest_inside (w : World) (m : Manifest) {above rest : Location}
    {name : List String} (hfile : (above.inPackage name rest).Listable)
    (hname : IsPackageName name) (hne : rest ≠ [])
    (hrest : ofString Layout.packageDirectory ∉ rest)
    (hroot : w.HoldsManifestAt (above.inPackage name []))
    (hdev : m.OnlyDev ("/".intercalate name)) :
    (∀ files : List Location, (∀ file ∈ files, file.Listable) →
        above.inPackage name rest ∈ files →
        "/".intercalate name ∈ w.flagged m (files.map fun file => file.path.lossy)) ↔
      ∀ inner, inner <+: rest.dropLast → inner ≠ [] →
        ¬ w.HoldsManifestAt (above.inPackage name inner) := by
  have happend : ∀ inner, above.inPackage name inner = above.inPackage name [] ++ inner := by
    simp [Location.inPackage]
  have hdir : (above.inPackage name rest).dropLast = above.inPackage name [] ++ rest.dropLast := by
    rw [happend rest, List.dropLast_append_of_ne_nil hne]
  -- the file belongs to the package or to a part of it
  obtain ⟨inner, hinner, hnearest, hholds, hnone⟩ :=
    nearestPackage_append (by simp [Location.inPackage]) hroot rest.dropLast
  rw [← hdir, ← happend] at hnearest
  rw [← happend] at hholds
  have hbegins : inner <+: rest := hinner.trans (List.dropLast_prefix rest)
  have hnameOf : nameOf (above.inPackage name inner).path = "/".intercalate name ↔ inner = [] := by
    refine nameOf_eq_iff (hfile.proper.beginning ?_) hname fun hmem => hrest (hbegins.subset hmem)
    rw [happend, happend rest]
    exact (List.prefix_append_right_inj _).2 hbegins
  constructor
  · intro hflagged other hother hother'
    -- in a listing of this file alone, nothing else can bring up the name
    have hsingle := hflagged [above.inPackage name rest] (by simpa using hfile)
      (List.mem_singleton_self _)
    rw [mem_flagged_iff m (by simpa using hfile)] at hsingle
    obtain ⟨-, file, hmem, root, hfound, hcalled⟩ := hsingle
    rw [List.mem_singleton.1 hmem, hnearest, Option.some.injEq] at hfound
    rw [← hfound, hnameOf] at hcalled
    rw [happend]
    exact hnone hcalled other hother hother'
  · intro hinside files hfiles hmem
    -- with no manifest inside, the nearest one is that of the package itself
    have hempty : inner = [] := by
      by_contra hne'
      exact hinside inner hinner hne' (hholds hne')
    rw [mem_flagged_iff m hfiles]
    exact ⟨hdev, _, hmem, _, hnearest, hnameOf.2 hempty⟩

/-- A project with an installed package that comes in two module formats. -/
def formatsProject : World :=
  .inside
    (.ofEntries [(["p"], .directory), (["p", "package.json"], .file [] false),
      (["p", "node_modules"], .directory), (["p", "node_modules", "left-pad"], .directory),
      (["p", "node_modules", "left-pad", "package.json"], .file [] false),
      (["p", "node_modules", "left-pad", "dist"], .directory),
      (["p", "node_modules", "left-pad", "dist", "esm"], .directory),
      (["p", "node_modules", "left-pad", "dist", "esm", "package.json"], .file [] false)]) []

/-- The manifest of a project that needs one package for its development. -/
def formatsManifest : Manifest := ⟨none, none, none, some [("left-pad", "1.0.0")], none⟩

/-- A file above the manifest of the second format counts for the package. -/
theorem mem_flagged_iff_no_manifest_inside_formats :
    ((Location.inPackage ["p"] ["left-pad"] ["dist", "pad.d.ts"]).Listable ∧
        IsPackageName ["left-pad"] ∧
        ofString Layout.packageDirectory ∉ (["dist", "pad.d.ts"] : Location) ∧
        formatsProject.HoldsManifestAt (Location.inPackage ["p"] ["left-pad"] []) ∧
        formatsManifest.OnlyDev ("/".intercalate ["left-pad"])) ∧
      "/".intercalate ["left-pad"] ∈ formatsProject.flagged formatsManifest
        (([["p", "src", "index.ts"], ["p", "node_modules", "left-pad", "dist", "pad.d.ts"]] :
          List Location).map fun file => file.path.lossy) := by
  have hfile : (Location.inPackage ["p"] ["left-pad"] ["dist", "pad.d.ts"]).Listable := by decide
  have hrest : ofString Layout.packageDirectory ∉ (["dist", "pad.d.ts"] : Location) := by decide
  have hroot : formatsProject.HoldsManifestAt (Location.inPackage ["p"] ["left-pad"] []) := by
    decide +kernel
  have hdev : formatsManifest.OnlyDev ("/".intercalate ["left-pad"]) := by decide +kernel
  have hbetween : ∀ inner ∈ (["dist"] : Location).inits, inner ≠ [] →
      ¬ formatsProject.HoldsManifestAt (Location.inPackage ["p"] ["left-pad"] inner) := by
    decide +kernel
  -- the second manifest lies further down than the file
  refine ⟨⟨hfile, .plain _, hrest, hroot, hdev⟩, ?_⟩
  apply (mem_flagged_iff_no_manifest_inside formatsProject formatsManifest hfile (.plain _)
    (by simp) hrest hroot hdev).2 fun inner hinner => hbetween inner ((List.mem_inits _ _).2 hinner)
  · decide
  · decide

/-- A file below it does not, although the package holds it too. -/
theorem not_mem_flagged_formats :
    ((Location.inPackage ["p"] ["left-pad"] ["dist", "esm", "index.d.ts"]).Listable ∧
        IsPackageName ["left-pad"] ∧
        ofString Layout.packageDirectory ∉ (["dist", "esm", "index.d.ts"] : Location) ∧
        formatsProject.HoldsManifestAt (Location.inPackage ["p"] ["left-pad"] []) ∧
        formatsManifest.OnlyDev ("/".intercalate ["left-pad"])) ∧
      "/".intercalate ["left-pad"] ∉ formatsProject.flagged formatsManifest
        [(Location.inPackage ["p"] ["left-pad"] ["dist", "esm", "index.d.ts"]).path.lossy] :=
  ⟨⟨by decide, .plain _, by decide, by decide +kernel, by decide +kernel⟩, by decide +kernel⟩

end World

end TypeLeak
