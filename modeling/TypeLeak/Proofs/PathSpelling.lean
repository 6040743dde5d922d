import TypeLeak.Package.Root
import TypeLeak.Proofs.PathWalk

/-!
# Paths under different spellings

Two spellings of a path differ in slashes and dots that do not move a walk, so that both lead to
the same directory, and a name joined to either is found or not found alike.  The one thing in
which they can differ is their length: the operating system refuses a spelling that is too long.

## Key results

- `moves_steps`: the steps that move a walk are told by the components of the path
- `reaches_of_isSame`: so spellings of one path lead to the same directory
- `holdsManifest_of_isSame`: and to the same manifest, unless only one of them is too long
- `ancestors_eq`: the ancestors of a path are itself and the ancestors of its parent
- `parent_induction`: so what a path has from its parent, every path has
-/

namespace TypeLeak

namespace OsText

/-- Cutting at slashes loses nothing but slashes. -/
theorem contains_eq_any_segments {b : UInt8} (hb : b ≠ slashByte) (t : OsText) :
    t.bytes.contains b = t.segments.any fun segment => segment.bytes.contains b := by
  rw [Bool.eq_iff_iff, List.contains_iff_mem, List.any_eq_true,
    ← Text.exists_mem_cut_iff (· == slashByte) (by simpa using hb)]
  simp [segments]

end OsText

/-! ## Components and steps -/

namespace Path

/-- How a component moves a walk. -/
def Component.move : Component → Option Step
  | .root => none
  | .here => none
  | .up => some .up
  | .name text => some (.enter text)

/-- The segments that are components are those that move a walk, and move it alike. -/
private theorem filter_isMove_map_stepOf (segments : List OsText) :
    (segments.map stepOf).filter Step.isMove =
      (segments.filterMap ofSegment).filterMap Component.move := by
  induction segments with
  | nil => rfl
  | cons segment segments ih =>
    rw [List.map_cons, List.filter_cons, List.filterMap_cons, ih]
    -- an empty segment and a dot are no components, and do not move either
    by_cases h₁ : segment = .empty
    · simp [stepOf, ofSegment, isIdle, h₁, Step.isMove]
    by_cases h₂ : segment = .dot
    · simp [stepOf, ofSegment, isIdle, h₂, Step.isMove]
    by_cases h₃ : segment = .dots
    · simp [stepOf, ofSegment, isIdle, h₃, Step.isMove, Component.move]
    · simp [stepOf, ofSegment, isIdle, h₁, h₂, h₃, Step.isMove, Component.move]

/-- The steps that move a walk are told by the components. -/
theorem moves_steps (p : Path) :
    p.steps.filter Step.isMove = p.components.filterMap Component.move := by
  unfold steps components
  obtain ⟨lead, segments⟩ := p.split
  rw [List.filterMap_append, ← filter_isMove_map_stepOf]
  cases lead <;> rfl

/-- A component holds a NUL. -/
def Component.holdsNul (c : Component) : Bool := c.text.bytes.contains 0

/-- A segment that is no component holds no NUL. -/
private theorem any_holdsNul_filterMap_ofSegment (segments : List OsText) :
    (segments.filterMap ofSegment).any Component.holdsNul =
      segments.any fun segment => segment.bytes.contains 0 := by
  induction segments with
  | nil => rfl
  | cons segment segments ih =>
    rw [List.any_cons, ← ih, List.filterMap_cons]
    -- empty segments and dots drop out, and hold no NUL; two dots and names stay
    by_cases h₁ : segment = .empty
    · simp [ofSegment, isIdle, h₁]
    by_cases h₂ : segment = .dot
    · simp [ofSegment, isIdle, h₂]
    by_cases h₃ : segment = .dots
    · simp [ofSegment, isIdle, h₃, Component.holdsNul, Component.text]
    · simp [ofSegment, isIdle, h₁, h₂, h₃, Component.holdsNul, Component.text]

/-- A path holds a NUL exactly if one of its components does. -/
theorem holdsNul_eq (p : Path) : p.holdsNul = p.components.any Component.holdsNul := by
  -- what a lead takes away are empty segments and dots
  have hlead : ∀ segments : List OsText,
      (segments.any fun segment => segment.bytes.contains 0) =
        (leadOf segments).2.any fun segment => segment.bytes.contains 0 := by
    intro segments
    unfold leadOf
    split <;> simp
  unfold holdsNul components
  rw [OsText.contains_eq_any_segments (by decide), hlead, ← split_eq]
  obtain ⟨lead, segments⟩ := p.split
  rw [List.any_append, any_holdsNul_filterMap_ofSegment]
  cases lead <;> rfl

end Path

namespace World

variable {w : World} {p q : Path}

/-- Where the steps of a path lead is told by its components. -/
theorem leadsFrom_steps_iff {absolute : Bool} {links : Nat} {dir : Location} :
    w.LeadsFrom absolute p.steps links dir ↔
      w.LeadsFrom absolute (p.components.filterMap Path.Component.move) links dir := by
  rw [← Path.moves_steps, leadsFrom_filter_isMove]

/-- Spellings of one path lead to the same directory. -/
theorem reaches_of_isSame (h : p.isSame q = true) {links : Nat} {dir : Location} :
    w.Reaches p links dir ↔ w.Reaches q links dir := by
  -- the components are all that matters of a spelling
  have hcomponents := Path.isSame_iff.1 h
  have habsolute : p.isAbsolute = q.isAbsolute := by
    unfold Path.isAbsolute
    rw [hcomponents]
  unfold Reaches
  rw [Path.holdsNul_eq, Path.holdsNul_eq, leadsFrom_steps_iff, leadsFrom_steps_iff, habsolute,
    hcomponents]

end World

/-! ## Manifests -/

/-- The path of a manifest in a directory is no longer than the operating system takes. -/
def Path.Fits (dir : Path) : Prop := (dir.join ⟨Layout.manifestFile⟩).isTooLong = false

instance (dir : Path) : Decidable dir.Fits := inferInstanceAs (Decidable (_ = false))

/-- No directory is among these paths under two spellings of which only one is too long. -/
def Path.Even (spellings : List Path) : Prop :=
  ∀ p ∈ spellings, ∀ q ∈ spellings, p.isSame q = true → (p.Fits ↔ q.Fits)

instance (spellings : List Path) : Decidable (Path.Even spellings) :=
  inferInstanceAs (Decidable (∀ p ∈ spellings, ∀ q ∈ spellings, _ → _))

/-- There is none where nothing is too long. -/
theorem Path.even_of_fits {spellings : List Path} (h : ∀ p ∈ spellings, p.Fits) :
    Path.Even spellings :=
  fun p hp q hq _ => iff_of_true (h p hp) (h q hq)

namespace World

variable {w : World} {p q : Path}

/-- A directory that is spelled at too great a length holds no manifest. -/
theorem holdsManifest_of_not_fits (h : ¬ p.Fits) : w.holdsManifest p = false := by
  rw [Bool.eq_false_iff]
  intro hfile
  obtain ⟨loc, bytes, executable, hresolve⟩ := isFile_eq_true_iff.1 hfile
  exact h ((resolve_join (by decide)).1 hresolve).1

/-- A manifest that is found under one spelling is found under another that is not too long. -/
private theorem holdsManifest_imp (h : p.isSame q = true) (hq : q.Fits)
    (hfile : w.holdsManifest p = true) : w.holdsManifest q = true := by
  obtain ⟨loc, bytes, executable, hresolve⟩ := isFile_eq_true_iff.1 hfile
  obtain ⟨-, hnul, links, dir, hreaches, hwalk⟩ := (resolve_join (by decide)).1 hresolve
  exact isFile_eq_true_iff.2 ⟨loc, bytes, executable, (resolve_join (by decide)).2
    ⟨hq, hnul, links, dir, (reaches_of_isSame h).1 hreaches, hwalk⟩⟩

/-- Spellings of one directory hold the same manifest, unless only one of them is too long. -/
theorem holdsManifest_of_isSame (h : p.isSame q = true) (hfits : p.Fits ↔ q.Fits) :
    w.holdsManifest p = w.holdsManifest q := by
  by_cases hp : p.Fits
  · rw [Bool.eq_iff_iff]
    exact ⟨holdsManifest_imp h (hfits.1 hp), holdsManifest_imp (Path.isSame_symm h) hp⟩
  · -- if one spelling is too long then so is the other, and neither holds anything
    rw [holdsManifest_of_not_fits hp, holdsManifest_of_not_fits fun hq => hp (hfits.2 hq)]

end World

/-! ## Ancestors -/

namespace Path

/-- Shortening a path passes over the segments at its end that are no components. -/
private theorem shortened_dropWhile (segments : List OsText) :
    shortened (segments.dropWhile isIdle) = shortened segments := by
  induction segments with
  | nil => rfl
  | cons segment before ih =>
    by_cases h : isIdle segment = true
    · rw [List.dropWhile_cons_of_pos h, ih, shortened, if_pos h]
    · rw [List.dropWhile_cons_of_neg h]

/-- A beginning of the segments of a path is split as it was spelled. -/
private theorem split_spell {p : Path} {lead : Lead} {segments rest : List OsText}
    (h : p.split = (lead, segments ++ rest)) (hne : segments ≠ []) :
    (spell lead segments).split = (lead, segments) := by
  have hslash : ∀ s ∈ segments, OsText.slashByte ∉ s.bytes := fun s hs =>
    not_mem_of_mem_segments (p := p) (by rw [h]; exact List.mem_append_left _ hs)
  have hsplit := OsText.segments_ofSegments hne hslash
  obtain ⟨first, more, rfl⟩ := List.exists_cons_of_ne_nil hne
  rw [split_eq] at h ⊢
  cases lead with
  | root =>
    have htext : (spell .root (first :: more)).text =
        .empty ++ .slash ++ .ofSegments (first :: more) := rfl
    rw [htext, OsText.segments_append_slash, hsplit]
    rfl
  | here =>
    have htext : (spell .here (first :: more)).text =
        .dot ++ .slash ++ .ofSegments (first :: more) := rfl
    rw [htext, OsText.segments_append_slash, hsplit]
    rfl
  | bare =>
    show leadOf (OsText.ofSegments (first :: more)).segments = _
    rw [hsplit]
    -- what the path begins with is no dot, and an empty segment only if it is the only one
    unfold leadOf at h
    split at h
    · cases h
    · cases h
    · rename_i hroot hhere
      have hall : p.text.segments = first :: (more ++ rest) := (Prod.mk.inj h).2
      unfold leadOf
      split
      · rename_i heq
        cases heq
        exact absurd hall (hroot _ _)
      · rename_i heq
        cases heq
        exact absurd hall (hhere _)
      · rfl

/-- It keeps its components. -/
private theorem components_spell {p : Path} {lead : Lead} {segments rest : List OsText}
    (h : p.split = (lead, segments ++ rest)) :
    (spell lead segments).components = lead.components ++ segments.filterMap ofSegment := by
  by_cases hne : segments = []
  · subst hne
    cases lead <;> decide
  · unfold components
    rw [split_spell h hne]

/-- The ancestors of what is left of a path are told by the segments that are left. -/
private theorem ancestors_spell {p : Path} {lead : Lead} {segments rest : List OsText}
    (h : p.split = (lead, segments ++ rest)) :
    (spell lead segments).ancestors =
      spell lead segments :: (shortened segments.reverse).map (spell lead) ++
        (if lead = .here then [⟨.empty⟩] else []) := by
  by_cases hne : segments = []
  · subst hne
    cases lead <;> decide
  · unfold ancestors
    rw [split_spell h hne]

/-- The segments before the last component of a path are a beginning of its segments. -/
private theorem split_eq_of_last {p : Path} {last : OsText} {before : List OsText}
    (h : p.split.2.reverse.dropWhile isIdle = last :: before) :
    isIdle last = false ∧
      ∃ rest, p.split = (p.split.1, (before.dropWhile isIdle).reverse ++ rest) := by
  constructor
  · have hhead := List.head?_dropWhile_not isIdle p.split.2.reverse
    rw [h] at hhead
    simpa using hhead
  · -- both times what is taken away is idle segments at the end
    have hfront : (before.dropWhile isIdle).reverse <+: p.split.2 := by
      rw [← List.reverse_reverse p.split.2, List.reverse_prefix]
      have hsuffix : last :: before <:+ p.split.2.reverse := h ▸ List.dropWhile_suffix _
      exact (List.dropWhile_suffix _).trans ((List.suffix_cons _ _).trans hsuffix)
    obtain ⟨rest, hrest⟩ := hfront
    exact ⟨rest, Prod.ext rfl hrest.symm⟩

/-- The ancestors of a path are itself and the ancestors of its parent. -/
theorem ancestors_eq (p : Path) :
    p.ancestors = p :: (match p.parent with
      | some q => q.ancestors
      | none => []) := by
  have hshortened := shortened_dropWhile p.split.2.reverse
  unfold parent
  rw [ancestors]
  dsimp only
  cases hlast : p.split.2.reverse.dropWhile isIdle with
  | nil =>
    -- there is nothing to drop but a dot at the beginning
    rw [hlast] at hshortened
    rw [← hshortened]
    by_cases hlead : p.split.1 = .here
    · have hempty : (Path.mk .empty).ancestors = [⟨.empty⟩] := by decide
      simp [hlead, shortened, hempty]
    · simp [hlead, shortened]
  | cons last before =>
    -- the last component is dropped, with the idle segments before it
    obtain ⟨hidle, rest, hsplit⟩ := split_eq_of_last hlast
    have hparent : (spell p.split.1 (before.dropWhile isIdle).reverse).ancestors = _ :=
      ancestors_spell hsplit
    rw [List.reverse_reverse, shortened_dropWhile] at hparent
    rw [hlast, shortened, hidle] at hshortened
    dsimp only
    rw [hparent, ← hshortened]
    rfl

/-- Passing over them loses no components. -/
private theorem filterMap_dropWhile_isIdle (segments : List OsText) :
    (segments.dropWhile isIdle).filterMap ofSegment = segments.filterMap ofSegment := by
  induction segments with
  | nil => rfl
  | cons segment segments ih =>
    by_cases h : isIdle segment = true
    · rw [List.dropWhile_cons_of_pos h, ih, List.filterMap_cons_none (by simp [ofSegment, h])]
    · rw [List.dropWhile_cons_of_neg h]

/-- The components of a path are those of its parent and one more; only the root and the empty path
    have no parent. -/
theorem components_eq_of_parent (p : Path) :
    match p.parent with
    | some q => ∃ last ≠ .root, p.components = q.components ++ [last]
    | none => p.components = [] ∨ p.components = [.root] := by
  have hcomponents : p.components = p.split.1.components ++
      ((p.split.2.reverse.dropWhile isIdle).filterMap ofSegment).reverse := by
    rw [filterMap_dropWhile_isIdle, List.filterMap_reverse, List.reverse_reverse]
    rfl
  unfold parent
  dsimp only
  rw [hcomponents]
  cases hlast : p.split.2.reverse.dropWhile isIdle with
  | nil =>
    cases p.split.1 with
    | root => exact .inr rfl
    | here => exact ⟨.here, by decide, rfl⟩
    | bare => exact .inl rfl
  | cons last before =>
    obtain ⟨hidle, rest, hsplit⟩ := split_eq_of_last hlast
    -- the segment that is dropped is a component: a name or two dots
    have hsegment : ∃ c ≠ Component.root, ofSegment last = some c := by
      by_cases hup : last = .dots
      · exact ⟨.up, by decide, by rw [hup]; decide⟩
      · exact ⟨.name last, by simp, by simp [ofSegment, hidle, hup]⟩
    obtain ⟨c, hroot, hc⟩ := hsegment
    refine ⟨c, hroot, ?_⟩
    rw [components_spell hsplit, List.filterMap_reverse, filterMap_dropWhile_isIdle,
      List.filterMap_cons_some hc, List.reverse_cons, List.append_assoc]

/-- Only the root and the empty path have no parent. -/
theorem parent_eq_none_iff {p : Path} :
    p.parent = none ↔ p.components = [] ∨ p.components = [.root] := by
  have h := p.components_eq_of_parent
  cases hparent : p.parent with
  | none =>
    rw [hparent] at h
    simpa using h
  | some q =>
    rw [hparent] at h
    obtain ⟨last, hroot, hlast⟩ := h
    simp [hlast, List.append_eq_singleton_iff, hroot]

/-- What holds of the root and of the empty path, and of a path if it holds of its parent, holds of
every path. -/
@[elab_as_elim]
theorem parent_induction {motive : Path → Prop} (top : ∀ p : Path, p.parent = none → motive p)
    (below : ∀ p q : Path, p.parent = some q → motive q → motive p) (p : Path) : motive p := by
  -- on the number of components, of which a parent has one less
  induction hn : p.components.length generalizing p with
  | zero =>
    have hempty : p.components = [] := List.eq_nil_of_length_eq_zero hn
    exact top p (parent_eq_none_iff.2 (.inl hempty))
  | succ n ih =>
    have hcomponents := p.components_eq_of_parent
    cases hparent : p.parent with
    | none => exact top p hparent
    | some q =>
      rw [hparent] at hcomponents
      obtain ⟨last, -, hlast⟩ := hcomponents
      rw [hlast, List.length_append, List.length_singleton] at hn
      exact below p q hparent (ih q (Nat.succ.inj hn))

/-- A path without a parent is its only ancestor. -/
theorem ancestors_of_parent_none {p : Path} (h : p.parent = none) : p.ancestors = [p] := by
  rw [ancestors_eq, h]

/-- Any other path comes before the ancestors of its parent. -/
theorem ancestors_of_parent_some {p q : Path} (h : p.parent = some q) :
    p.ancestors = p :: q.ancestors := by
  rw [ancestors_eq, h]

/-- Spellings of one path have parents that are one path, or have none. -/
theorem parent_rel {p q : Path} (h : p.isSame q = true) :
    Option.Rel (fun a b => a.isSame b = true) p.parent q.parent := by
  have hcomponents := isSame_iff.1 h
  have hnone : p.parent = none ↔ q.parent = none := by
    rw [parent_eq_none_iff, parent_eq_none_iff, hcomponents]
  have hp := p.components_eq_of_parent
  have hq := q.components_eq_of_parent
  rw [hcomponents] at hp
  cases hparent : p.parent with
  | none =>
    rw [hnone.1 hparent]
    exact .none
  | some a =>
    cases hparent' : q.parent with
    | none => exact absurd (hnone.2 hparent') (by simp [hparent])
    | some b =>
      rw [hparent] at hp
      rw [hparent'] at hq
      -- both parents have the components of their paths but for the last
      obtain ⟨last, -, hlast⟩ := hp
      obtain ⟨last', -, hlast'⟩ := hq
      rw [hlast] at hlast'
      exact .some (isSame_iff.2 (List.append_inj_left' hlast' rfl))

/-- So do their ancestors, one after the other. -/
theorem ancestors_rel {p q : Path} (h : p.isSame q = true) :
    List.Forall₂ (fun a b => a.isSame b = true) p.ancestors q.ancestors := by
  -- up the parents of the one path, which those of the other follow
  induction p using parent_induction generalizing q with
  | top p hp =>
    have hparent := parent_rel h
    rw [hp] at hparent
    cases hq : q.parent with
    | none => rw [ancestors_of_parent_none hp, ancestors_of_parent_none hq]; exact .cons h .nil
    | some b => rw [hq] at hparent; nomatch hparent
  | below p a hp ih =>
    have hparent := parent_rel h
    rw [hp] at hparent
    cases hq : q.parent with
    | none => rw [hq] at hparent; nomatch hparent
    | some b =>
      rw [hq] at hparent
      rw [ancestors_of_parent_some hp, ancestors_of_parent_some hq]
      cases hparent with
      | some hab => exact .cons h (ih hab)

/-- Going upwards, there are fewer and fewer components. -/
theorem ancestors_pairwise (p : Path) :
    p.ancestors.Pairwise fun a b => b.components.length < a.components.length := by
  induction p using parent_induction with
  | top p hp => rw [ancestors_of_parent_none hp]; exact List.pairwise_singleton ..
  | below p q hp ih =>
    -- a parent has the components but the last one
    have hlonger : q.components.length < p.components.length := by
      have hcomponents := p.components_eq_of_parent
      rw [hp] at hcomponents
      obtain ⟨last, -, hlast⟩ := hcomponents
      simp [hlast]
    rw [ancestors_of_parent_some hp, List.pairwise_cons]
    refine ⟨fun b hb => ?_, ih⟩
    rw [ancestors_eq] at ih hb
    rcases List.mem_cons.1 hb with rfl | hb
    · exact hlonger
    · exact ((List.pairwise_cons.1 ih).1 b hb).trans hlonger

end Path

/-- The candidates are the ancestors that have a parent. -/
theorem World.packageCandidates_eq (dir : Path) :
    packageCandidates dir = dir.ancestors.filter (·.parent.isSome) := by
  unfold packageCandidates
  induction dir using Path.parent_induction with
  | top p hp => simp [Path.ancestors_of_parent_none hp, hp]
  | below p q hp ih =>
    rw [Path.ancestors_of_parent_some hp, List.takeWhile_cons_of_pos (by simp [hp]),
      List.filter_cons_of_pos (by simp [hp]), ih]

/-- The first candidate is the nearest directory with a parent. -/
theorem World.find?_packageCandidates (dir : Path) (holds : Path → Bool) :
    (packageCandidates dir).find? holds =
      dir.ancestors.find? fun q => q.parent.isSome && holds q := by
  rw [packageCandidates_eq, List.find?_filter]
  simp only [Bool.decide_and, Bool.decide_eq_true]

/-! ## A spelling of any length -/

namespace Path

/-- The path `/p` with many slashes at its beginning. -/
def stretched (slashes : Nat) : Path := ⟨⟨List.replicate slashes OsText.slashByte ++ [0x70]⟩⟩

/-- Each slash ends an empty segment. -/
private theorem cut_slashes (slashes : Nat) :
    Text.cut (· == OsText.slashByte) (List.replicate slashes OsText.slashByte ++ [0x70]) =
      List.replicate slashes [] ++ [[0x70]] := by
  induction slashes with
  | zero => rfl
  | succ slashes ih => rw [List.replicate_succ, List.cons_append, Text.cut, ih]; rfl

/-- The slashes at the beginning make empty segments behind the root. -/
private theorem split_stretched (more : Nat) :
    (stretched (more + 2)).split = (.root, List.replicate (more + 1) .empty ++ [⟨[0x70]⟩]) := by
  have hsegments : (stretched (more + 2)).text.segments =
      List.replicate (more + 2) .empty ++ [⟨[0x70]⟩] := by
    simp [OsText.segments, stretched, cut_slashes, OsText.empty]
  -- the first of the empty segments makes the root
  rw [split_eq, hsegments]
  rfl

/-- However many slashes there are, it is the same path. -/
theorem isSame_stretched (more : Nat) : (stretched (more + 2)).isSame ⟨"/p"⟩ = true := by
  have hempty : ofSegment .empty = none := rfl
  have hname : ofSegment ⟨[0x70]⟩ = some (.name ⟨[0x70]⟩) := rfl
  -- empty segments are no components
  have hcomponents : (stretched (more + 2)).components = [.root, .name ⟨[0x70]⟩] := by
    unfold components
    rw [split_stretched]
    simp [Lead.components, List.filterMap_replicate_of_none hempty, hname]
  rw [isSame_iff, hcomponents]
  decide

/-- So only the path itself can be the root of a package. -/
theorem packageCandidates_stretched (more : Nat) :
    World.packageCandidates (stretched (more + 2)) = [stretched (more + 2)] := by
  have hslashes : (List.replicate (more + 1) OsText.empty).dropWhile isIdle = [] := by
    have hidle : isIdle .empty = true := rfl
    simp [hidle]
  have hname : isIdle ⟨[0x70]⟩ = false := rfl
  -- the only ancestor above is the root, which has no parent
  have hparent : (stretched (more + 2)).parent = some ⟨.slash⟩ := by
    unfold parent
    rw [split_stretched]
    simp [hname, hslashes, spell]
  have htop : (Path.mk .slash).ancestors = [⟨.slash⟩] ∧ (Path.mk .slash).parent = none := by decide
  unfold World.packageCandidates
  rw [ancestors_eq, hparent]
  simp [hparent, htop]

/-- With enough slashes it is too long. -/
theorem not_fits_stretched {slashes : Nat} (h : 4096 ≤ slashes) : ¬ (stretched slashes).Fits := by
  have hsize : slashes < (stretched slashes).text.size := by
    simp [stretched, OsText.size]
  have hne : (stretched slashes).text ≠ .empty := by
    intro hempty
    rw [hempty] at hsize
    exact Nat.not_lt_zero _ hsize
  -- a joined path is no shorter than the path
  have hname : IsName Layout.manifestFile := by decide
  obtain ⟨front, hjoin, hfront⟩ := join_text hne hname
  unfold Fits isTooLong
  rw [hjoin, decide_eq_false_iff_not]
  rcases hfront with hfront | hfront <;> rw [hfront] at hsize <;>
    simp only [OsText.size_append, OsText.size_slash] at hsize ⊢ <;> omega

end Path

end TypeLeak
