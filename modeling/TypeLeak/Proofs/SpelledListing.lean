import Mathlib.Data.List.Forall2
import TypeLeak.Proofs.PackageListing
import TypeLeak.Proofs.SharedSearch

/-!
# Listings under different spellings

Directories and roots of packages are told apart by the components of their paths, but a package
goes by a piece of the text of its root.  Of several spellings of a root the first one that a
listing reaches is kept.  So two listings of the same files reach the same roots in the same order,
and flag the same packages for every manifest exactly if the names that the roots go by, as they
are first spelled, are the same.  Slashes and dots outside the names make no difference; inside a
name they do.

## Key results

- `packageCandidates_rel`, `nearestManifest_rel`: spellings of a directory have the same nearest
  manifest
- `keepFirst_rel`: related lists are left with related items
- `flagged_eq_firstRoots`: what is flagged is told by the roots that are reached, each as it is
  first spelled
- `flagged_eq_iff_of_isSame`: when listings of the same files flag the same packages
-/

namespace List

variable {α β : Type} {R : α → β → Prop} {xs : List α} {ys : List β}

/-- Related items are items of the lists. -/
theorem Forall₂.and_mem (h : Forall₂ R xs ys) :
    Forall₂ (fun x y => R x y ∧ x ∈ xs ∧ y ∈ ys) xs ys := by
  rw [forall₂_iff_zip] at h ⊢
  exact ⟨h.1, fun hzip => ⟨h.2 hzip, of_mem_zip hzip⟩⟩

/-- As many of related lists are taken, if a condition cannot tell related items apart. -/
theorem Forall₂.takeWhile {p : α → Bool} {q : β → Bool} (h : Forall₂ R xs ys)
    (hpq : ∀ x y, R x y → p x = q y) : Forall₂ R (xs.takeWhile p) (ys.takeWhile q) := by
  induction h with
  | nil => exact .nil
  | cons hxy hrest ih =>
    rw [takeWhile_cons, takeWhile_cons, hpq _ _ hxy]
    split
    · exact .cons hxy ih
    · exact .nil

/-- Nor can a search by such a condition. -/
theorem Forall₂.find? {p : α → Bool} {q : β → Bool} (h : Forall₂ R xs ys)
    (hpq : ∀ x ∈ xs, ∀ y ∈ ys, R x y → p x = q y) : Option.Rel R (xs.find? p) (ys.find? q) := by
  induction h with
  | nil => exact .none
  | cons hxy hrest ih =>
    rw [find?_cons, find?_cons, hpq _ (by simp) _ (by simp) hxy]
    split
    · exact .some hxy
    · exact ih fun x hx y hy => hpq x (mem_cons_of_mem _ hx) y (mem_cons_of_mem _ hy)

end List

namespace TypeLeak

open Package

/-- Spellings of the same paths, one after the other. -/
def Path.SameList (ps qs : List Path) : Prop := List.Forall₂ (fun p q => p.isSame q = true) ps qs

instance (ps qs : List Path) : Decidable (Path.SameList ps qs) :=
  inferInstanceAs (Decidable (List.Forall₂ _ ps qs))

namespace Package

variable {α β : Type} {R : α → β → Prop} {same : α → α → Bool} {same' : β → β → Bool}
  {xs : List α} {ys : List β}

/-- Of lists whose items are told apart in the same way, the same items are kept. -/
theorem keepFirst_rel (h : List.Forall₂ R xs ys)
    (hsame : ∀ x y, R x y → ∀ a b, R a b → same x a = same' y b) :
    List.Forall₂ R (keepFirst same xs) (keepFirst same' ys) := by
  induction h with
  | nil => exact .nil
  | cons hxy hrest ih =>
    -- what is the same as the first item is left out of both
    refine .cons hxy (List.rel_filter ?_ ih)
    intro a b hab
    simp [hsame _ _ hxy _ _ hab]

end Package

namespace World

open SharedSearches (spellings)

variable {w : World}

/-! ## The nearest manifest -/

/-- On the way up from these directories there is none that is spelled at too great a length here
    and not there. -/
def EvenAbove (dirs : List Path) : Prop := Path.Even (spellings .empty dirs)

instance (dirs : List Path) : Decidable (EvenAbove dirs) :=
  inferInstanceAs (Decidable (Path.Even _))

/-- The spellings in question are the candidates of all the directories. -/
theorem evenAbove_iff {dirs : List Path} :
    EvenAbove dirs ↔ ∀ p ∈ dirs, ∀ q ∈ dirs, ∀ a ∈ packageCandidates p, ∀ b ∈ packageCandidates q,
      a.isSame b = true → (a.Fits ↔ b.Fits) := by
  have hmem : ∀ a, a ∈ spellings .empty dirs ↔ ∃ p ∈ dirs, a ∈ packageCandidates p := fun a =>
    List.mem_flatMap
  simp only [EvenAbove, Path.Even, hmem]
  constructor
  · intro h p hp q hq a ha b hb
    exact h a ⟨p, hp, ha⟩ b ⟨q, hq, hb⟩
  · rintro h a ⟨p, hp, ha⟩ b ⟨q, hq, hb⟩
    exact h p hp q hq a ha b hb

/-- There are no more of them on the way up from fewer directories. -/
theorem EvenAbove.mono {dirs dirs' : List Path} (h : EvenAbove dirs') (hsub : dirs ⊆ dirs') :
    EvenAbove dirs := by
  rw [evenAbove_iff] at h ⊢
  intro p hp q hq
  exact h p (hsub hp) q (hsub hq)

/-- Spellings of one directory have spellings of the same candidates. -/
theorem packageCandidates_rel {p q : Path} (h : p.isSame q = true) :
    Path.SameList (packageCandidates p) (packageCandidates q) := by
  apply (Path.ancestors_rel h).takeWhile
  intro a b hab
  have hparent := Path.parent_rel hab
  generalize a.parent = x, b.parent = y at hparent
  cases hparent <;> rfl

/-- The nearest manifest is that of the first candidate that has one. -/
theorem nearestManifest_eq (dir : Path) :
    w.nearestManifest dir = (packageCandidates dir).find? w.holdsManifest :=
  (find?_packageCandidates dir w.holdsManifest).symm

/-- Spellings of a directory have the same nearest manifest. -/
theorem nearestManifest_rel {dirs : List Path} (heven : EvenAbove dirs) {p q : Path} (hp : p ∈ dirs)
    (hq : q ∈ dirs) (h : p.isSame q = true) :
    Option.Rel (fun a b => a.isSame b = true) (w.nearestManifest p) (w.nearestManifest q) := by
  rw [nearestManifest_eq, nearestManifest_eq]
  -- candidate by candidate the same is found, since none is too long on one side only
  apply (packageCandidates_rel h).find?
  intro a ha b hb hab
  exact holdsManifest_of_isSame hab (evenAbove_iff.1 heven p hp q hq a ha b hb hab)

/-- Every look-up comes to something. -/
private theorem length_packageRoots (cache : ManifestCache) (dirs : List Path) :
    (w.packageRoots cache dirs).1.length = dirs.length := by
  induction dirs generalizing cache with
  | nil => rfl
  | cons dir dirs ih => simp [packageRoots, ih]

/-- Directories that are looked up one after the other each come to the nearest manifest. -/
theorem packageRoots_empty {dirs : List Path} (heven : EvenAbove dirs) :
    (w.packageRoots .empty dirs).1 = dirs.map w.nearestManifest := by
  -- one after the other is one of the schedules
  obtain ⟨schedule, hschedule⟩ := SharedSearches.packageRoots_eq_run w .empty dirs
  have hempty : ∀ e ∈ ManifestCache.empty.entries, e.2 = w.holdsManifest e.1.path := nofun
  have hrun := (SharedSearches.sound_start hempty dirs).run heven schedule
  rw [hschedule] at hrun
  have hlen : (w.packageRoots .empty dirs).1.length = dirs.length := length_packageRoots _ _
  apply List.ext_getElem?
  intro i
  cases hroot : (w.packageRoots .empty dirs).1[i]? with
  | none =>
    have hle := List.getElem?_eq_none_iff.1 hroot
    rw [hlen] at hle
    simp [hle]
  | some root =>
    have hdone : ((w.packageRoots .empty dirs).1.map RootSearch.done)[i]? = some (.done root) := by
      simp [hroot]
    have hfound := (hrun.searches i _ hdone).2
    simp only [← nearestManifest_eq] at hfound
    exact hfound.symm

/-! ## The roots that a listing reaches -/

/-- The paths of listed files. -/
def listedPaths (files : List String) : List Path := files.map fun file => ⟨.ofString file⟩

/-- The directories that listed files lie in. -/
def listedDirs (files : List String) : List Path := (listedPaths files).filterMap Path.parent

/-- The directories of two listings come one after the other. -/
theorem listedDirs_append (files files' : List String) :
    listedDirs (files ++ files') = listedDirs files ++ listedDirs files' := by
  rw [listedDirs, listedPaths, List.map_append, List.filterMap_append]
  rfl

/-- The roots of the packages that listed files lie in, each as it is first spelled. -/
def firstRoots (w : World) (files : List String) : List Path :=
  keepFirst Path.isSame ((listedDirs files).filterMap w.nearestManifest)

/-- The names that these roots go by, the compiler's apart. -/
def firstNames (w : World) (files : List String) : List String :=
  keepFirst (· == ·) (((w.firstRoots files).map nameOf).filter (· ≠ Layout.compilerPackage))

/-- What is flagged is told by the roots that are reached, each as it is first spelled. -/
theorem flagged_eq_firstRoots {files : List String} (heven : EvenAbove (listedDirs files))
    (m : Manifest) :
    w.flagged m files =
      keepFirst (· == ·) (((w.firstRoots files).map nameOf).filter m.isDevOnly) := by
  have hkept : EvenAbove (keepFirst Path.isSame (listedDirs files)) :=
    heven.mono fun dir hdir => mem_of_mem_keepFirst hdir
  -- leaving out repeated directories is put off until the roots are known
  have hroots : keepFirst Path.isSame
        ((keepFirst Path.isSame (listedDirs files)).filterMap w.nearestManifest) =
      w.firstRoots files := by
    apply keepFirst_filterMap_of_same
    · intro a p q hpq
      rw [Path.isSame, Path.isSame, Path.isSame_iff.1 hpq]
    · intro p hp q hq hpq
      exact nearestManifest_rel heven hp hq hpq
  unfold flagged
  dsimp only
  have hdirs : files.filterMap (fun file => (Path.mk (.ofString file)).parent) =
      listedDirs files := by
    rw [listedDirs, listedPaths, List.filterMap_map]
    rfl
  rw [keepFirstPaths_eq, keepFirstPaths_eq, hdirs, packageRoots_empty hkept, List.filterMap_map,
    Function.id_comp, hroots]

/-- Listings of the same files reach the same roots, in the same order. -/
theorem firstRoots_rel {files files' : List String}
    (hsame : Path.SameList (listedPaths files) (listedPaths files'))
    (heven : EvenAbove (listedDirs (files ++ files'))) :
    Path.SameList (w.firstRoots files) (w.firstRoots files') := by
  -- parents, nearest manifests and what is kept of them: each step relates the same paths
  have hdirs : Path.SameList (listedDirs files) (listedDirs files') :=
    List.rel_filterMap (fun p q hpq => Path.parent_rel hpq) hsame
  have hroots : Path.SameList ((listedDirs files).filterMap w.nearestManifest)
      ((listedDirs files').filterMap w.nearestManifest) := by
    rw [listedDirs_append] at heven
    refine List.rel_filterMap ?_ hdirs.and_mem
    rintro p q ⟨hpq, hp, hq⟩
    exact nearestManifest_rel heven (List.mem_append_left _ hp) (List.mem_append_right _ hq) hpq
  apply keepFirst_rel hroots
  intro p q hpq a b hab
  rw [Path.isSame, Path.isSame, Path.isSame_iff.1 hpq, Path.isSame_iff.1 hab]

/-! ## What is flagged -/

/-- Of the names that the roots go by, those of mere development dependencies are flagged. -/
theorem flagged_eq_firstNames {files : List String} (heven : EvenAbove (listedDirs files))
    (m : Manifest) : w.flagged m files = (w.firstNames files).filter m.isDevOnly := by
  rw [flagged_eq_firstRoots heven, firstNames, ← keepFirst_filter, List.filter_filter]
  congr 1
  apply List.filter_congr
  intro name _
  rw [Bool.eq_iff_iff, Bool.and_eq_true, decide_eq_true_eq, Manifest.isDevOnly_iff]
  simp +contextual

/-- A manifest that has packages as development dependencies and declares nothing else. -/
def developing (names : List String) : Manifest :=
  ⟨none, none, none, some (names.map fun name => (name, "*")), none⟩

/-- Such a manifest has all of them flagged, but not the compiler. -/
theorem isDevOnly_developing {names : List String} {name : String} :
    (developing names).isDevOnly name = true ↔ name ≠ Layout.compilerPackage ∧ name ∈ names := by
  rw [Manifest.isDevOnly_iff]
  simp [developing, Manifest.declaresDev, Manifest.declaresRuntime, Manifest.declaresPeer,
    Manifest.declares]

/-- Such a manifest lets every name be flagged. -/
theorem filter_developing {files names : List String}
    (hsub : w.firstNames files ⊆ names) :
    (w.firstNames files).filter (developing names).isDevOnly = w.firstNames files := by
  rw [List.filter_eq_self]
  intro name hname
  -- the compiler has been left out of the names that are kept
  have hreached := (List.mem_filter.1 (mem_of_mem_keepFirst hname)).2
  exact isDevOnly_developing.2 ⟨of_decide_eq_true hreached, hsub hname⟩

/-- A root goes by the name that its plainest spelling has. -/
def PlainlyNamed (root : Path) : Prop := nameOf root = nameOf (Path.ofComponents root.components)

instance (root : Path) : Decidable (PlainlyNamed root) := inferInstanceAs (Decidable (_ = _))

/-- Two roots that are the same path go by the same name if both are plainly named. -/
theorem nameOf_eq_of_isSame {p q : Path} (h : p.isSame q = true) (hp : PlainlyNamed p)
    (hq : PlainlyNamed q) : nameOf p = nameOf q := by
  rw [hp, hq, Path.isSame_iff.1 h]

/-- Plainly named roots that are the same paths go by the same names. -/
theorem map_nameOf_eq {ps qs : List Path} (h : Path.SameList ps qs) (hps : ∀ p ∈ ps, PlainlyNamed p)
    (hqs : ∀ q ∈ qs, PlainlyNamed q) : ps.map nameOf = qs.map nameOf := by
  induction h with
  | nil => rfl
  | cons hpq hrest ih =>
    rw [List.map_cons, List.map_cons, nameOf_eq_of_isSame hpq (hps _ (by simp)) (hqs _ (by simp)),
      ih (fun p hp => hps p (by simp [hp])) fun q hq => hqs q (by simp [hq])]

/-- Listings of the same files under other spellings reach the same packages in the same order.
    They flag the same packages, whatever the manifest, exactly if the names of the packages are the
    same, as they are cut out of what is first reached.  So they do where every package that is
    reached is plainly named. -/
theorem flagged_eq_iff_of_isSame (w : World) {files files' : List String}
    (hsame : Path.SameList (listedPaths files) (listedPaths files'))
    (heven : EvenAbove (listedDirs (files ++ files'))) :
    Path.SameList (w.firstRoots files) (w.firstRoots files') ∧
      ((∀ m, w.flagged m files = w.flagged m files') ↔ w.firstNames files = w.firstNames files') ∧
      ((∀ root ∈ w.firstRoots files ++ w.firstRoots files', PlainlyNamed root) →
        ∀ m, w.flagged m files = w.flagged m files') := by
  have hroots := firstRoots_rel (w := w) hsame heven
  have hflagged : ∀ m, w.flagged m files = (w.firstNames files).filter m.isDevOnly :=
    flagged_eq_firstNames (heven.mono (by simp [listedDirs_append]))
  have hflagged' : ∀ m, w.flagged m files' = (w.firstNames files').filter m.isDevOnly :=
    flagged_eq_firstNames (heven.mono (by simp [listedDirs_append]))
  have hnames : (∀ m, w.flagged m files = w.flagged m files') ↔
      w.firstNames files = w.firstNames files' := by
    constructor
    · intro h
      -- there is a manifest under which every name is flagged
      have hall := h (developing (w.firstNames files ++ w.firstNames files'))
      rwa [hflagged, hflagged', filter_developing (List.subset_append_left _ _),
        filter_developing (List.subset_append_right _ _)] at hall
    · intro h m
      rw [hflagged, hflagged', h]
  refine ⟨hroots, hnames, fun hplain => hnames.2 ?_⟩
  unfold firstNames
  rw [map_nameOf_eq hroots (fun p hp => hplain p (List.mem_append_left _ hp)) fun q hq =>
    hplain q (List.mem_append_right _ hq)]

/-- Slashes and dots before the name of a package make no difference. -/
theorem flagged_eq_iff_of_isSame_idle :
    let files : List String := ["/p/src/index.ts", "/p/node_modules/left-pad/lib/pad.d.ts",
      "/p/node_modules/left-pad/index.d.ts"]
    let files' := ["/p//src/./index.ts", "//p/./node_modules/left-pad//lib/./pad.d.ts",
      "/p/node_modules/left-pad/index.d.ts/"]
    (Path.SameList (listedPaths files) (listedPaths files') ∧ EvenAbove (listedDirs (files ++ files')) ∧
        ∀ root ∈ installedProject.firstRoots files ++ installedProject.firstRoots files',
          PlainlyNamed root) ∧
      installedProject.flagged (developing ["left-pad"]) files' = ["left-pad"] := by
  intro files files'
  have hsame : Path.SameList (listedPaths files) (listedPaths files') := by decide +kernel
  have heven : EvenAbove (listedDirs (files ++ files')) := Path.even_of_fits (by decide +kernel)
  -- no slash is doubled just before the name of a package
  have hplain : ∀ root ∈ installedProject.firstRoots files ++ installedProject.firstRoots files',
      PlainlyNamed root := by decide +kernel
  refine ⟨⟨hsame, heven, hplain⟩, ?_⟩
  rw [← (flagged_eq_iff_of_isSame installedProject hsame heven).2.2 hplain]
  decide +kernel

/-- A slash that is doubled just before the name of a package does: the package that goes by it is
    not the one that is declared.  When both spellings are listed, the one that comes first
    decides. -/
theorem flagged_ne_doubled_slash :
    let plain := "/p/node_modules/left-pad/index.d.ts"
    let doubled := "/p/node_modules//left-pad/index.d.ts"
    (Path.mk plain).isSame ⟨doubled⟩ = true ∧ EvenAbove (listedDirs [plain, doubled]) ∧
      installedProject.flagged (developing ["left-pad"]) [plain] = ["left-pad"] ∧
      installedProject.flagged (developing ["left-pad"]) [doubled] = [] ∧
      installedProject.flagged (developing ["left-pad"]) [plain, doubled] = ["left-pad"] ∧
      installedProject.flagged (developing ["left-pad"]) [doubled, plain] = [] := by
  intro plain doubled
  have heven : EvenAbove (listedDirs [plain, doubled]) := Path.even_of_fits (by decide +kernel)
  refine ⟨by decide +kernel, heven, ?_⟩
  decide +kernel

end World

end TypeLeak
