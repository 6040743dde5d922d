import TypeLeak.Proofs.PathSpelling
import TypeLeak.Proofs.WellFormedTree

/-!
# Canonical paths

The canonical path of an entry spells its location, so no link is met on the way along it: in a
well-formed tree every name before the last one is that of a directory.  It leads to the entry, and
is its own canonical path unless it is too long for the operating system.

## Key results

- `eq_of_reaches_path`: the path of a location reaches nothing but that location
- `lookUp_path`: and leads to the entry there
- `canonical_eq_ok_iff`: when a path has a canonical one, and which
- `canonical_path`: a path that is canonical already stays as it is
- `fits_of_lookUp`: a way within reach leads to an entry whose canonical path is not too long
-/

namespace TypeLeak

namespace Location

/-- The path of a location is no shorter than those of the directories above it. -/
theorem isTooLong_path_of_isPrefix {front loc : Location} (h : front <+: loc)
    (hloc : loc.path.isTooLong = false) : front.path.isTooLong = false := by
  obtain ⟨back, rfl⟩ := h
  have hsize : front.path.text.size ≤ (path (front ++ back)).text.size := by
    -- the names behind come with a slash before them
    by_cases hback : back = []
    · rw [hback, List.append_nil]
    by_cases hfront : front = []
    · simp [hfront, path]
    · simp only [path, OsText.ofSegments_append hfront hback, OsText.size_append]
      omega
  unfold Path.isTooLong at hloc ⊢
  simp only [decide_eq_false_iff_not] at hloc ⊢
  omega

end Location

/-! ## Walks along canonical paths -/

namespace FileTree

/-- Every name is one that the operating system takes: it is not too long and holds no NUL. -/
def Storable (t : FileTree) : Prop :=
  ∀ e ∈ t.entries, ∀ name ∈ e.1, name.size ≤ maxName ∧ (Path.mk name).holdsNul = false

instance (t : FileTree) : Decidable t.Storable :=
  inferInstanceAs (Decidable (∀ e ∈ t.entries, ∀ name ∈ e.1, _ ∧ _))

/-- So is every name on the way to an entry. -/
theorem Storable.of_get? {t : FileTree} (h : t.Storable) {loc : Location} {e : Entry}
    (hget : t.get? loc = some e) {name : OsText} (hname : name ∈ loc) :
    name.size ≤ maxName ∧ (Path.mk name).holdsNul = false := by
  have hne : loc ≠ [] := List.ne_nil_of_mem hname
  exact h _ (mem_entries_of_get? hget hne) name hname

namespace WellFormed

variable {t : FileTree} (h : t.WellFormed)

include h

/-- What stands above an entry is a directory. -/
theorem isDirectory_of_append {front back : Location} {e : Entry}
    (hget : t.get? (front ++ back) = some e) (hback : back ≠ []) : t.isDirectory front = true := by
  -- from the last name upwards: what holds an entry is a directory
  induction back using List.reverseRecOn generalizing e with
  | nil => exact absurd rfl hback
  | append_singleton back name ih =>
    have hparent := h.isDirectory_dropLast hget
    rw [← List.append_assoc, List.dropLast_concat] at hparent
    by_cases hnil : back = []
    · subst hnil
      rwa [List.append_nil] at hparent
    · exact ih (isDirectory_iff.1 hparent) hnil

/-- There is no link on the way to an entry that is none. -/
theorem get?_ne_link {front loc : Location} {e : Entry} (hget : t.get? loc = some e)
    (hentry : ∀ target, e ≠ .link target) (hfront : front <+: loc) (target : Path) :
    t.get? front ≠ some (.link target) := by
  obtain ⟨back, rfl⟩ := hfront
  intro hlink
  by_cases hnil : back = []
  · rw [hnil, List.append_nil, hlink] at hget
    exact hentry target (Option.some.inj hget).symm
  · have hdir := isDirectory_iff.1 (h.isDirectory_of_append hget hnil)
    rw [hlink] at hdir
    exact nomatch hdir

/-- Names that lead to an entry which is no link lead through no link. -/
theorem eq_of_leads {links links' : Nat} {dir dir' names : Location} {e : Entry}
    (hleads : t.Leads links dir (names.map .enter) links' dir')
    (hget : t.get? (dir ++ names) = some e) (hentry : ∀ target, e ≠ .link target) :
    dir' = dir ++ names := by
  induction names generalizing dir with
  | nil =>
    cases hleads
    rw [List.append_nil]
  | cons name names ih =>
    have hassoc : dir ++ name :: names = (dir ++ [name]) ++ names := by simp
    rw [hassoc] at hget ⊢
    rw [List.map_cons] at hleads
    -- a name is entered, or it would be that of a link
    cases hleads with
    | enter _ _ hrest => exact ih hrest hget
    | @follow _ _ _ _ _ target _ _ hlink _ =>
      exact absurd hlink (h.get?_ne_link hget hentry (List.prefix_append _ _) target)

/-- Names lead to the directory that they name. -/
theorem leads_of_isDirectory (hstored : t.Storable) {links : Nat} {dir names : Location}
    (hdir : t.isDirectory (dir ++ names) = true) :
    t.Leads links dir (names.map .enter) links (dir ++ names) := by
  induction names generalizing dir with
  | nil =>
    rw [List.append_nil]
    exact .here
  | cons name names ih =>
    have hassoc : dir ++ name :: names = (dir ++ [name]) ++ names := by simp
    rw [hassoc] at hdir ⊢
    have hget := isDirectory_iff.1 hdir
    -- the first name is that of the directory itself or of one above it
    have hfirst : t.isDirectory (dir ++ [name]) = true := by
      by_cases hnil : names = []
      · rwa [hnil, List.append_nil] at hdir
      · exact h.isDirectory_of_append hget hnil
    have hmem : name ∈ (dir ++ [name]) ++ names := by simp
    have hsize := (hstored.of_get? hget hmem).1
    exact .enter hsize (isDirectory_iff.1 hfirst) (ih hdir)

/-- A walk along the names of an entry that is no link finds the entry. -/
theorem walk_names (hstored : t.Storable) {links : Nat} {loc : Location} {e : Entry}
    (hget : t.get? loc = some e) (hentry : ∀ target, e ≠ .link target) :
    t.walk .reading links [] (loc.map .enter) = .ok (.present loc e) := by
  cases e with
  | link target => exact absurd rfl (hentry target)
  | directory =>
    have hdir : t.isDirectory ([] ++ loc) = true := isDirectory_iff.2 hget
    exact walk_eq_directory_iff.2 ⟨⟨links, h.leads_of_isDirectory hstored hdir⟩, hdir⟩
  | file bytes executable =>
    -- the root is no file, and the directory of the file is led to first
    have hne : loc ≠ [] := by
      rintro rfl
      exact nomatch hget
    obtain ⟨front, name, rfl⟩ := (List.eq_nil_or_concat' loc).resolve_left hne
    have hparent := h.isDirectory_dropLast hget
    rw [List.dropLast_concat] at hparent
    have hleads : t.Leads links [] (front.map .enter) links ([] ++ front) :=
      h.leads_of_isDirectory hstored hparent
    have hmem : name ∈ front ++ [name] := by simp
    have hsize := (hstored.of_get? hget hmem).1
    rw [List.map_append, walk_append hleads (.inl rfl), List.nil_append, List.map_singleton,
      walk_enter, if_neg (by simp), if_neg (Nat.not_lt.2 hsize), hget]
    rfl

end WellFormed

/-! ## What is probed on a walk -/

section Probes

variable {t : FileTree} {links : Nat} {dir : Location}

/-- With no step left nothing is probed. -/
theorem probes_nil : t.probes links dir [] = [] := by
  cases links <;> rfl

/-- A slash probes nothing. -/
theorem probes_slash (rest : List Step) :
    t.probes links dir (.slash :: rest) = t.probes links dir rest := by
  cases links <;> rfl

/-- Nor does a dot. -/
theorem probes_stay (rest : List Step) :
    t.probes links dir (.stay :: rest) = t.probes links dir rest := by
  cases links <;> rfl

/-- Nor do two dots. -/
theorem probes_up (rest : List Step) :
    t.probes links dir (.up :: rest) = t.probes links dir.dropLast rest := by
  cases links <;> rfl

/-- What is probed for a name. -/
theorem probes_enter (name : OsText) (rest : List Step) :
    t.probes links dir (.enter name :: rest) =
      match t.get? (dir ++ [name]), links with
      | some .directory, links =>
        Location.path (dir ++ [name]) ::
          (if needsDirectory rest then [(Location.path (dir ++ [name])).append .slash] else []) ++
          t.probes links (dir ++ [name]) rest
      | some (.link target), links + 1 =>
        Location.path (dir ++ [name]) ::
          t.probes links (linkStart dir target) (target.steps ++ rest)
      | _, _ => [Location.path (dir ++ [name])] := by
  -- the links decide only what is made of a link
  cases links with
  | zero =>
    rw [probes, probeSteps]
    cases t.get? (dir ++ [name]) with
    | none => rfl
    | some e => cases e <;> rfl
  | succ links =>
    rw [probes, probeSteps]
    cases t.get? (dir ++ [name]) with
    | none => rfl
    | some e => cases e <;> rfl

/-- No probe on a walk is too long. -/
def ProbesFit (t : FileTree) (links : Nat) (dir : Location) (steps : List Step) : Prop :=
  ∀ probe ∈ t.probes links dir steps, probe.isTooLong = false

/-- The first name on a walk is probed by the path of its location. -/
theorem ProbesFit.path {name : OsText} {rest : List Step}
    (h : t.ProbesFit links dir (.enter name :: rest)) :
    (Location.path (dir ++ [name])).isTooLong = false := by
  apply h
  rw [probes_enter]
  split <;> simp

/-- The rest of a walk through a directory probes no more. -/
theorem ProbesFit.of_directory {name : OsText} {rest : List Step}
    (h : t.ProbesFit links dir (.enter name :: rest))
    (hget : t.get? (dir ++ [name]) = some .directory) :
    t.ProbesFit links (dir ++ [name]) rest := by
  intro probe hprobe
  apply h
  rw [probes_enter, hget]
  simp [hprobe]

/-- Nor does the rest of a walk that follows a link. -/
theorem ProbesFit.of_link {name : OsText} {target : Path} {rest : List Step}
    (h : t.ProbesFit (links + 1) dir (.enter name :: rest))
    (hget : t.get? (dir ++ [name]) = some (.link target)) :
    t.ProbesFit links (linkStart dir target) (target.steps ++ rest) := by
  intro probe hprobe
  apply h
  rw [probes_enter, hget]
  simp [hprobe]

/-- Steps on which no probe is too long lead from a directory that is not too deep to another. -/
theorem Leads.fits {links' : Nat} {dir' : Location} {steps : List Step}
    (h : t.Leads links dir steps links' dir') (hprobes : t.ProbesFit links dir steps)
    (hdir : dir.path.isTooLong = false) : dir'.path.isTooLong = false := by
  unfold ProbesFit at hprobes
  -- a directory that is entered has been probed, and a link starts no deeper than where it stands
  induction h with
  | here => exact hdir
  | slash _ ih => exact ih (by rwa [probes_slash] at hprobes) hdir
  | stay _ ih => exact ih (by rwa [probes_stay] at hprobes) hdir
  | up _ ih =>
    have habove := Location.isTooLong_path_of_isPrefix (List.dropLast_prefix _) hdir
    exact ih (by rwa [probes_up] at hprobes) habove
  | enter _ hget _ ih => exact ih (ProbesFit.of_directory hprobes hget) (ProbesFit.path hprobes)
  | @follow _ _ above _ _ target _ _ hget _ ih =>
    have hprefix : linkStart above target <+: above := by
      unfold linkStart
      split
      · exact List.nil_prefix
      · exact List.prefix_refl _
    have hstart := Location.isTooLong_path_of_isPrefix hprefix hdir
    exact ih (ProbesFit.of_link hprobes hget) hstart

/-- Steps on which no probe is too long end at a name that is not too deep. -/
theorem Ends.fits {dir' : Location} {steps : List Step} {name : OsText}
    (h : t.Ends links dir steps dir' name) (hprobes : t.ProbesFit links dir steps) :
    (Location.path (dir' ++ [name])).isTooLong = false := by
  unfold ProbesFit at hprobes
  induction h with
  | last _ => exact ProbesFit.path hprobes
  | slash _ ih => exact ih (by rwa [probes_slash] at hprobes)
  | stay _ ih => exact ih (by rwa [probes_stay] at hprobes)
  | up _ ih => exact ih (by rwa [probes_up] at hprobes)
  | enter _ hget _ ih => exact ih (ProbesFit.of_directory hprobes hget)
  | follow _ hget _ ih => exact ih (ProbesFit.of_link hprobes hget)

/-- Along the names of an entry, only the paths of what is above it and its own are probed. -/
theorem exists_of_mem_probes_names {names : Location} {probe : Path}
    (h : probe ∈ t.probes links dir (names.map .enter))
    (hlink : ∀ front target, front <+: names → t.get? (dir ++ front) ≠ some (.link target)) :
    ∃ front, front <+: names ∧ probe = Location.path (dir ++ front) := by
  induction names generalizing dir with
  | nil =>
    rw [List.map_nil, probes_nil] at h
    exact nomatch h
  | cons name names ih =>
    have hfirst : [name] <+: name :: names := by simp
    -- names follow, or nothing, so that no slash is put behind the path
    have hneeds : needsDirectory (names.map .enter) = false := by
      cases names <;> rfl
    rw [List.map_cons, probes_enter, hneeds] at h
    split at h
    · rcases List.mem_cons.1 h with rfl | h
      · exact ⟨[name], hfirst, rfl⟩
      · have hrest : ∀ front target, front <+: names →
            t.get? ((dir ++ [name]) ++ front) ≠ some (.link target) := by
          intro front target hfront
          rw [List.append_assoc]
          exact hlink _ target (by simpa using hfront)
        obtain ⟨front, hfront, rfl⟩ := ih h hrest
        exact ⟨name :: front, by simpa using hfront, by simp⟩
    · rename_i target _ hget
      exact absurd hget (hlink [name] target hfirst)
    · exact ⟨[name], hfirst, List.mem_singleton.1 h⟩

end Probes

end FileTree

namespace World

variable {w : World} {p : Path}

/-- The path of a location reaches nothing but that location. -/
theorem eq_of_reaches_path (hw : w.tree.WellFormed) {loc dir : Location} {e : Entry} {links : Nat}
    (hget : w.tree.get? loc = some e) (hentry : ∀ target, e ≠ .link target)
    (hreach : w.Reaches loc.path links dir) : dir = loc := by
  have hloc := hw.isProper_of_get? hget
  obtain ⟨-, -, rest, hup, hleads⟩ := hreach
  have hstart : w.startOf loc.path.isAbsolute = .inside [] := by
    unfold startOf
    rw [Location.isAbsolute_path hloc, if_pos rfl]
  rw [hstart, Standpoint.inside, Standpoint.comeUp_zero] at hup
  rw [hstart] at hleads
  cases hup
  by_cases hne : loc = []
  · -- the root's path is a slash, which leads nowhere else
    subst hne
    have hslash : (Location.path []).steps = [.slash] := by decide
    rw [hslash] at hleads
    cases hleads with
    | slash hnil =>
      cases hnil
      rfl
  · rw [Location.steps_path hloc hne] at hleads
    exact hw.eq_of_leads hleads hget hentry

/-- What is on the way along a path can be named by its canonical path: the way starts at the root
    or in a directory that has not been removed, and no path that is probed on it is too long. -/
def WithinReach (w : World) (p : Path) : Prop :=
  (p.isAbsolute = true ∨ w.cwd.lost = 0) ∧ ∀ probe ∈ w.probed p, probe.isTooLong = false

instance (w : World) (p : Path) : Decidable (w.WithinReach p) :=
  inferInstanceAs (Decidable (_ ∧ ∀ probe ∈ w.probed p, _))

/-- A path has a canonical one if it leads to an entry and its way is within reach. -/
theorem canonical_eq_ok_iff {q : Path} :
    w.canonical p = .ok q ↔
      ∃ loc e, w.tree.lookUp .reading w.cwd p = .ok (.present loc e) ∧ w.WithinReach p ∧
        loc.path = q := by
  unfold canonical WithinReach
  cases w.tree.lookUp .reading w.cwd p with
  | error cause => simp
  | ok found =>
    cases found with
    | present loc e =>
      -- the program asks whether any probe is too long
      have hprobes : (∀ probe ∈ w.probed p, probe.isTooLong = false) ↔
          (w.probed p).any Path.isTooLong = false := by simp
      rw [hprobes]
      cases p.isAbsolute <;> cases (w.probed p).any Path.isTooLong <;>
        by_cases hlost : w.cwd.lost = 0 <;> simp [hlost]
    | vacant loc => simp
    | removed => simp

/-- What a path leads to stands where it is found. -/
theorem get?_of_lookUp {purpose : Purpose} {loc : Location} {e : Entry}
    (h : w.tree.lookUp purpose w.cwd p = .ok (.present loc e)) : w.tree.get? loc = some e := by
  unfold FileTree.lookUp at h
  split at h
  · exact nomatch h
  split at h
  · exact nomatch h
  · exact FileTree.get?_of_walkFrom h

/-- What a path leads to is no link. -/
theorem entry_ne_link {purpose : Purpose} {loc : Location} {e : Entry}
    (h : w.tree.lookUp purpose w.cwd p = .ok (.present loc e)) (target : Path) :
    e ≠ .link target := by
  rintro rfl
  -- a walk stops at no link, so what it has found is none
  rcases finds_of_lookUp h with hremoved | ⟨-, rest, -, hfinds⟩
  · cases hremoved
  · exact hfinds.ne_link rfl

/-- From the root, or from a directory that is still there, all steps of a path are walked. -/
theorem lookUp_eq_ok_iff (hstart : p.isAbsolute = true ∨ w.cwd.lost = 0) {found : Target} :
    w.tree.lookUp .reading w.cwd p = .ok found ↔
      p.holdsNul = false ∧ p.text ≠ .empty ∧ w.tree.isDirectory (w.startOf p.isAbsolute).dir = true ∧
        w.tree.walk .reading FileTree.maxLinks (w.startOf p.isAbsolute).dir p.steps = .ok found := by
  -- nothing is lost at the root, and nothing at a directory that is there
  have hlost : (w.startOf p.isAbsolute).lost = 0 := by
    unfold startOf
    rcases hstart with habsolute | hlost
    · rw [habsolute]
      rfl
    · split
      · rfl
      · exact hlost
  unfold FileTree.lookUp
  rw [walkFrom_eq, hlost, Standpoint.comeUp_zero]
  cases p.holdsNul <;> by_cases htext : p.text = .empty <;>
    cases w.tree.isDirectory (w.startOf p.isAbsolute).dir <;> simp [htext]

/-- A way within reach leads to an entry whose canonical path is not too long, unless it is relative
    to a current directory that is too deep itself. -/
theorem fits_of_lookUp {loc : Location} {e : Entry}
    (h : w.tree.lookUp .reading w.cwd p = .ok (.present loc e)) (hreach : w.WithinReach p)
    (hcwd : p.isAbsolute = true ∨ w.cwd.dir.path.isTooLong = false) :
    loc.path.isTooLong = false := by
  obtain ⟨hstart, hprobes⟩ := hreach
  obtain ⟨-, -, -, hwalk⟩ := (lookUp_eq_ok_iff hstart).1 h
  have hdir : (w.startOf p.isAbsolute).dir = if p.isAbsolute then [] else w.cwd.dir := by
    unfold startOf
    split <;> rfl
  have hfits : w.tree.ProbesFit FileTree.maxLinks (w.startOf p.isAbsolute).dir p.steps := by
    rw [hdir]
    exact hprobes
  rcases FileTree.finds_of_walk hwalk with ⟨_, hfound⟩ | ⟨dir, name, hends, hfound⟩
  · -- a directory is where the steps lead from one that is not too deep
    cases hfound
    obtain ⟨⟨links, hleads⟩, -⟩ := FileTree.walk_eq_directory_iff.1 hwalk
    refine hleads.fits hfits ?_
    rw [hdir]
    have hroot : (Location.path []).isTooLong = false := by decide
    rcases hcwd with habsolute | hcwd
    · rw [habsolute]
      exact hroot
    · split
      · exact hroot
      · exact hcwd
  · rcases hfound with ⟨hvacant, -⟩ | ⟨bytes, executable, hfile, -⟩
    · exact nomatch hvacant
    · cases hfile
      exact hends.fits hfits

section Path

variable (hw : w.tree.WellFormed) (hstored : w.tree.Storable) {loc : Location} {e : Entry}
  (hget : w.tree.get? loc = some e) (hentry : ∀ target, e ≠ .link target)
include hw hstored hget hentry

/-- The path of an entry that is no link leads to the entry. -/
theorem lookUp_path : w.tree.lookUp .reading w.cwd loc.path = .ok (.present loc e) := by
  have hloc := hw.isProper_of_get? hget
  have habsolute := Location.isAbsolute_path hloc
  have hnul : loc.path.holdsNul = false := by
    rw [Path.holdsNul_eq, Location.components_path hloc, List.any_cons, List.any_map,
      Bool.or_eq_false_iff]
    refine ⟨rfl, List.any_eq_false.2 fun name hname => ?_⟩
    exact Bool.eq_false_iff.1 (hstored.of_get? hget hname).2
  have htext : loc.path.text ≠ .empty := by simp [Location.path]
  refine (lookUp_eq_ok_iff (.inl habsolute)).2 ⟨hnul, htext, ?_, ?_⟩
  · rw [habsolute]
    exact FileTree.isDirectory_nil
  · rw [habsolute]
    by_cases hne : loc = []
    · -- the root's path is a slash, and stays where it starts
      subst hne
      have hslash : (Location.path []).steps = [.slash] := by decide
      rw [hslash, FileTree.walk_slash]
      exact hw.walk_names hstored hget hentry
    · rw [Location.steps_path hloc hne]
      exact hw.walk_names hstored hget hentry

/-- A path that is canonical already stays as it is, if it is not too long. -/
theorem canonical_path (hfits : loc.path.isTooLong = false) :
    w.canonical loc.path = .ok loc.path := by
  have hloc := hw.isProper_of_get? hget
  have habsolute := Location.isAbsolute_path hloc
  refine canonical_eq_ok_iff.2
    ⟨loc, e, lookUp_path hw hstored hget hentry, ⟨.inl habsolute, fun probe hprobe => ?_⟩, rfl⟩
  unfold probed at hprobe
  rw [habsolute, if_pos rfl] at hprobe
  by_cases hne : loc = []
  · subst hne
    have hslash : (Location.path []).steps = [.slash] := by decide
    rw [hslash, FileTree.probes_slash, FileTree.probes_nil] at hprobe
    exact nomatch hprobe
  · -- what is probed are the paths of the directories above and of the entry itself
    rw [Location.steps_path hloc hne] at hprobe
    obtain ⟨front, hfront, rfl⟩ := FileTree.exists_of_mem_probes_names hprobe
      fun front target hfront => hw.get?_ne_link hget hentry hfront target
    exact Location.isTooLong_path_of_isPrefix hfront hfits

end Path

/-- A canonical path reaches, if anything, the entry that it was found for. -/
theorem eq_of_reaches_canonical (hw : w.tree.WellFormed) {q : Path} {links : Nat} {dir : Location}
    (h : w.canonical p = .ok q) (hreach : w.Reaches q links dir) : q = dir.path := by
  obtain ⟨loc, e, hfound, -, rfl⟩ := canonical_eq_ok_iff.1 h
  have hget := get?_of_lookUp hfound
  rw [eq_of_reaches_path hw hget (entry_ne_link hfound) hreach]

end World

end TypeLeak
