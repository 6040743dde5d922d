import TypeLeak.FileTree.Resolve
import TypeLeak.Proofs.CutText

/-!
# Paths written name by name

A *name* is what a directory can call an entry: it is not empty, holds no slash and is not one or
two dots.  This file says how the spelling of a path changes when a name is joined to it, and what
the plainest spelling of a location means.

## Key results

- `join_name`: joining a name adds one step behind the steps of the path
- `path_join`, `parent_path`, `ancestors_path`: a location's path is spelled as the location
- `isSame_path`: and determines it
-/

namespace TypeLeak

namespace Path

/-- What a directory can call one of its entries. -/
def IsName (name : OsText) : Prop :=
  name ≠ .empty ∧ name ≠ .dot ∧ name ≠ .dots ∧ OsText.slashByte ∉ name.bytes

instance (name : OsText) : Decidable (IsName name) :=
  inferInstanceAs (Decidable (_ ∧ _ ∧ _ ∧ _))

namespace IsName

variable {name : OsText} (h : IsName name)

include h

/-- A name is no segment that a path may leave out. -/
theorem isIdle_eq : isIdle name = false := by
  simp [isIdle, h.1, h.2.1]

/-- A name is a component. -/
theorem ofSegment_eq : ofSegment name = some (.name name) := by
  simp [ofSegment, h.isIdle_eq, h.2.2.1]

/-- A name is entered. -/
theorem stepOf_eq : stepOf name = .enter name := by
  simp [stepOf, h.1, h.2.1, h.2.2.1]

/-- A name is one segment. -/
theorem segments_eq : name.segments = [name] := OsText.segments_of_not_mem h.2.2.2

end IsName

/-! ## Joining a name to a path -/

/-- What segments begin with and what follows. -/
def leadOf : List OsText → Lead × List OsText
  | .empty :: second :: rest => (.root, second :: rest)
  | .dot :: rest => (.here, rest)
  | segments => (.bare, segments)

/-- What a path begins with is told by its segments. -/
theorem split_eq (p : Path) : p.split = leadOf (p.text.segments) := rfl

/-- A path that begins with anything but a slash or a dot has no lead. -/
theorem leadOf_bare {first : OsText} (h₁ : first ≠ .empty) (h₂ : first ≠ .dot) (rest : List OsText) :
    leadOf (first :: rest) = (.bare, first :: rest) := by
  unfold leadOf
  split
  · rename_i heq
    exact absurd (List.cons.inj heq).1 h₁
  · rename_i heq
    exact absurd (List.cons.inj heq).1 h₂
  · rfl

/-- A dot in front leads from where one is. -/
theorem leadOf_here (rest : List OsText) : leadOf (.dot :: rest) = (.here, rest) := rfl

/-- Only the lead says whether a path begins at the root. -/
theorem isAbsolute_eq (p : Path) : p.isAbsolute = (p.split.1 == .root) := by
  have hsegment : ∀ segment, ofSegment segment ≠ some .root := by
    intro segment
    unfold ofSegment
    split
    · simp
    · split <;> simp
  unfold isAbsolute components
  obtain ⟨lead, segments⟩ := p.split
  -- with a lead the first component is the lead; without one it comes from a segment
  cases lead with
  | root => rfl
  | here => rfl
  | bare =>
    simp only [Lead.components, List.nil_append]
    cases hc : (segments.filterMap ofSegment).head? with
    | none => rfl
    | some c =>
      obtain ⟨segment, -, hs⟩ := List.mem_filterMap.1 (List.mem_of_mem_head? hc)
      have hne : c ≠ .root := fun heq => hsegment segment (heq ▸ hs)
      rw [beq_eq_false_iff_ne.2 fun heq => hne (Option.some.inj heq)]
      rfl

/-- A name has no lead. -/
theorem split_name {name : OsText} (h : IsName name) : (Path.mk name).split = (.bare, [name]) := by
  rw [split_eq, h.segments_eq, leadOf_bare h.1 h.2.1]

/-- A name is no absolute path. -/
theorem isAbsolute_name {name : OsText} (h : IsName name) : (Path.mk name).isAbsolute = false := by
  rw [isAbsolute_eq, split_name h]
  rfl

/-- The spelling of a path that a name is joined to. -/
theorem join_text {p : Path} {name : OsText} (hp : p.text ≠ .empty) (h : IsName name) :
    ∃ front, (p.join ⟨name⟩).text = front ++ .slash ++ name ∧
      (p.text = front ∨ p.text = front ++ .slash) := by
  unfold join
  rw [isAbsolute_name h]
  simp only [Bool.false_or, beq_iff_eq, hp, if_false]
  -- a slash at the end of the path is the one before the name
  split
  · rename_i hlast
    obtain ⟨front, hfront⟩ := OsText.eq_append_slash hlast
    exact ⟨front, by simp [hfront], .inr hfront⟩
  · exact ⟨p.text, rfl, .inl rfl⟩

/-- A joined path is not empty. -/
theorem join_text_ne {p : Path} {name : OsText} (h : IsName name) : (p.join ⟨name⟩).text ≠ .empty := by
  -- onto the empty path a name is put as it is
  by_cases hp : p.text = .empty
  · simp [join, hp, h.1]
  · obtain ⟨front, hfront, -⟩ := join_text hp h
    simp [hfront]

/-- The steps of a name alone. -/
theorem steps_name {name : OsText} (h : IsName name) : (Path.mk name).steps = [.enter name] := by
  unfold steps
  rw [split_name h]
  simp [h.stepOf_eq]

/-- The segments of a path that a name is joined to.  A slash at its end leaves an empty segment
    behind that the joined path has not got. -/
private theorem segments_join {p : Path} {name : OsText} (hp : p.text ≠ .empty) (h : IsName name) :
    ∃ segments, segments ≠ [] ∧ (p.join ⟨name⟩).text.segments = segments ++ [name] ∧
      (p.text.segments = segments ∨ p.text.segments = segments ++ [.empty]) := by
  obtain ⟨front, hjoin, hfront⟩ := join_text hp h
  refine ⟨front.segments, OsText.segments_ne_nil _, ?_, ?_⟩
  · rw [hjoin, OsText.segments_append_slash, h.segments_eq]
  · rcases hfront with hfront | hfront
    · exact .inl (by rw [hfront])
    · have happend := OsText.segments_append_slash front .empty
      rw [OsText.append_empty] at happend
      exact .inr (by rw [hfront, happend]; rfl)

/-- Joining a name adds one step behind the steps of the path, whose last slash does not count. -/
theorem join_name (p : Path) {name : OsText} (h : IsName name) :
    (p.join ⟨name⟩).isAbsolute = p.isAbsolute ∧
      ∃ steps, (p.join ⟨name⟩).steps = steps ++ [.enter name] ∧
        (p.steps = steps ∨ p.steps = steps ++ [.slash]) := by
  by_cases hp : p.text = .empty
  · -- the empty path has one empty segment, and the name takes its place
    obtain ⟨text⟩ := p
    subst hp
    have hjoin : (Path.mk .empty).join ⟨name⟩ = ⟨name⟩ := by simp [join]
    rw [hjoin, isAbsolute_name h, steps_name h]
    exact ⟨rfl, [], rfl, .inr rfl⟩
  obtain ⟨segments, hne, hjoin, hbefore⟩ := segments_join hp h
  have hempty : p.text.segments ≠ [.empty] := fun he => hp (OsText.eq_empty_of_segments he)
  have hslash : stepOf .empty = .slash := rfl
  rw [isAbsolute_eq, isAbsolute_eq]
  unfold steps
  rw [split_eq, split_eq, hjoin]
  -- the lead of both paths is told by the first segment that they share
  cases segments with
  | nil => exact absurd rfl hne
  | cons first rest =>
    by_cases h₁ : first = .empty
    · subst h₁
      cases rest with
      | nil =>
        -- the root alone, whose only segment is the empty one
        rcases hbefore with hbefore | hbefore
        · exact absurd hbefore hempty
        · rw [hbefore]
          exact ⟨rfl, [], by simp [leadOf, h.stepOf_eq], .inr (by simp [leadOf, hslash])⟩
      | cons second rest =>
        refine ⟨?_, (second :: rest).map stepOf, by simp [leadOf, h.stepOf_eq], ?_⟩
        · rcases hbefore with hbefore | hbefore <;> rw [hbefore] <;> rfl
        · exact hbefore.imp (fun hb => by rw [hb]; rfl) fun hb => by
            rw [hb]; simp [leadOf, hslash]
    · by_cases h₂ : first = .dot
      · subst h₂
        refine ⟨?_, .stay :: rest.map stepOf, by simp [leadOf_here, h.stepOf_eq], ?_⟩
        · rcases hbefore with hbefore | hbefore <;> rw [hbefore] <;> rfl
        · exact hbefore.imp (fun hb => by rw [hb]; rfl) fun hb => by
            rw [hb]; simp [leadOf_here, hslash]
      · refine ⟨?_, (first :: rest).map stepOf, ?_, ?_⟩
        · rcases hbefore with hbefore | hbefore <;> rw [hbefore] <;>
            simp [leadOf_bare h₁ h₂]
        · simp [leadOf_bare h₁ h₂, h.stepOf_eq]
        · exact hbefore.imp (fun hb => by rw [hb, leadOf_bare h₁ h₂]) fun hb => by
            rw [hb, List.cons_append, leadOf_bare h₁ h₂]; simp [hslash]

/-- A joined path holds a NUL if one of its parts does. -/
theorem holdsNul_join (p : Path) {name : OsText} (h : IsName name) :
    (p.join ⟨name⟩).holdsNul = (p.holdsNul || (Path.mk name).holdsNul) := by
  by_cases hp : p.text = .empty
  · simp [join, holdsNul, hp]
  · obtain ⟨front, hjoin, hfront⟩ := join_text hp h
    unfold holdsNul
    rw [hjoin]
    have hslash : (0 == OsText.slashByte) = false := by decide
    -- the slash that may stand between the two is no NUL
    rcases hfront with hfront | hfront <;> rw [hfront] <;>
      simp only [OsText.bytes_append, OsText.bytes_slash, List.contains_append, List.contains_cons,
        hslash, List.contains_nil, Bool.or_false]

/-- A segment between slashes holds none. -/
theorem not_mem_of_mem_segments {p : Path} {segment : OsText} (h : segment ∈ p.split.2) :
    OsText.slashByte ∉ segment.bytes := by
  have hmem : segment ∈ p.text.segments := by
    rw [split_eq] at h
    unfold leadOf at h
    -- a lead takes segments away and adds none
    split at h <;> simp_all
  exact OsText.not_mem_of_mem_segments hmem

/-- What a path enters is a name. -/
theorem isName_of_mem_steps {p : Path} {name : OsText} (h : Step.enter name ∈ p.steps) :
    IsName name := by
  have hmap : Step.enter name ∈ p.split.2.map stepOf := by
    -- a dot in front adds a step that enters nothing
    unfold steps at h
    split at h
    · rename_i segments hsplit
      rw [hsplit]
      simpa using h
    · rename_i segments _ hsplit
      rw [hsplit]
      exact h
  obtain ⟨s, hs, hstep⟩ := List.mem_map.1 hmap
  -- and one that is entered is neither empty nor dots
  unfold stepOf at hstep
  split at hstep
  · exact nomatch hstep
  split at hstep
  · exact nomatch hstep
  split at hstep
  · exact nomatch hstep
  rename_i h₁ h₂ h₃
  cases hstep
  exact ⟨h₁, h₂, h₃, not_mem_of_mem_segments hs⟩

end Path

/-! ## The path of a location -/

namespace Location

open TypeLeak.Path (IsName)

/-- Every name of a location is one that a directory can call an entry. -/
def IsProper (loc : Location) : Prop := ∀ name ∈ loc, IsName name

instance (loc : Location) : Decidable loc.IsProper :=
  inferInstanceAs (Decidable (∀ name ∈ loc, IsName name))

/-- The names of an entry's location are those of its directory and its own. -/
theorem isProper_concat {loc : Location} {name : OsText} :
    IsProper (loc ++ [name]) ↔ loc.IsProper ∧ IsName name := by
  simp [IsProper, or_imp, forall_and]

/-- The names on the way to a location are among its names. -/
theorem IsProper.beginning {loc loc' : Location} (h : loc'.IsProper) (hle : loc <+: loc') :
    loc.IsProper := fun name hname => h name (hle.subset hname)

variable {loc : Location}

/-- The segments of a location's path are its names, behind the empty one at the root. -/
theorem segments_path (hloc : loc.IsProper) (hne : loc ≠ []) :
    (path loc).text.segments = .empty :: loc := by
  -- the slash at the root is one more, so the text before it is the empty segment
  have htext : (path loc).text = .empty ++ .slash ++ .ofSegments loc := rfl
  rw [htext, OsText.segments_append_slash,
    OsText.segments_ofSegments hne fun n hn => (hloc n hn).2.2.2]
  rfl

/-- A location's path begins at the root, and its segments are the names. -/
theorem split_path (hloc : loc.IsProper) (hne : loc ≠ []) :
    (path loc).split = (.root, loc) := by
  rw [Path.split_eq, segments_path hloc hne]
  cases loc with
  | nil => exact absurd rfl hne
  | cons first rest => rfl

/-- A location's path is absolute. -/
theorem isAbsolute_path (hloc : loc.IsProper) : (path loc).isAbsolute = true := by
  rw [Path.isAbsolute_eq]
  by_cases hne : loc = []
  · subst hne
    rfl
  · rw [split_path hloc hne]
    rfl

/-- Each name is a component. -/
theorem filterMap_ofSegment (hloc : loc.IsProper) : loc.filterMap Path.ofSegment = loc.map .name := by
  rw [← List.filterMap_eq_map]
  exact List.filterMap_congr fun name hname => (hloc name hname).ofSegment_eq

/-- What a location's path means. -/
theorem components_path (hloc : loc.IsProper) :
    (path loc).components = .root :: loc.map .name := by
  by_cases hne : loc = []
  · subst hne
    rfl
  · unfold Path.components
    rw [split_path hloc hne]
    simp [Path.Lead.components, filterMap_ofSegment hloc]

/-- Paths of different locations differ in their components. -/
theorem isSame_path {loc' : Location} (hloc : loc.IsProper) (hloc' : loc'.IsProper) :
    (path loc).isSame (path loc') = true ↔ loc = loc' := by
  rw [Path.isSame_iff, components_path hloc, components_path hloc', List.cons.injEq]
  refine ⟨fun h => ?_, fun h => by rw [h]; exact ⟨rfl, rfl⟩⟩
  -- names are told apart by the components that they make
  exact (List.map_inj_right fun a b hab => Path.Component.name.inj hab).1 h.2

/-- The steps along a location's path. -/
theorem steps_path (hloc : loc.IsProper) (hne : loc ≠ []) :
    (path loc).steps = loc.map .enter := by
  unfold Path.steps
  rw [split_path hloc hne]
  exact List.map_congr_left fun n hn => (hloc n hn).stepOf_eq

/-- The path of an entry is its name joined to the path of its directory. -/
theorem path_join (hloc : loc.IsProper) {name : OsText} (h : IsName name) :
    (path loc).join ⟨name⟩ = path (loc ++ [name]) := by
  by_cases hne : loc = []
  · subst hne
    simp [Path.join, Path.isAbsolute_name h, path]
  · -- below the top the path is a text with names, and the name comes behind one more slash
    have hp : (path loc).text ≠ .empty := by simp [path]
    obtain ⟨front, hjoin, hfront⟩ := Path.join_text hp h
    rcases hfront with hfront | hfront
    · have htext : ((path loc).join ⟨name⟩).text = (path (loc ++ [name])).text := by
        rw [hjoin, ← hfront]
        simp only [path, OsText.ofSegments_append hne (List.cons_ne_nil name []),
          OsText.ofSegments_singleton, OsText.append_assoc]
      exact congrArg Path.mk htext
    · -- no name is empty, so the path does not end with a slash
      exfalso
      have hsegments := segments_path hloc hne
      have happend := OsText.segments_append_slash front .empty
      rw [OsText.append_empty, ← hfront, hsegments] at happend
      have hlast := congrArg List.getLast? happend
      rw [List.getLast?_cons_of_ne_nil hne, List.getLast?_append] at hlast
      exact (hloc .empty (List.mem_of_getLast? hlast)).1 rfl

/-- No name at the end of a location's path may be left out. -/
private theorem dropWhile_isIdle (hloc : loc.IsProper) :
    loc.reverse.dropWhile Path.isIdle = loc.reverse := by
  cases hr : loc.reverse with
  | nil => rfl
  | cons last rest =>
    have hlast : last ∈ loc := List.mem_reverse.1 (by rw [hr]; simp)
    rw [List.dropWhile_cons_of_neg (by simp [(hloc last hlast).isIdle_eq])]

/-- The top has no parent. -/
theorem parent_path_nil : (path []).parent = none := by decide

/-- The parent of an entry's path is the path of its directory. -/
theorem parent_path (hloc : loc.IsProper) {name : OsText} (h : IsName name) :
    (path (loc ++ [name])).parent = some (path loc) := by
  unfold Path.parent
  rw [split_path (isProper_concat.2 ⟨hloc, h⟩) (by simp)]
  simp [h.isIdle_eq, dropWhile_isIdle hloc, Path.spell, path]

/-- The ancestors of a location's path are the paths of its beginnings, the longest first. -/
theorem ancestors_path (hloc : loc.IsProper) :
    (path loc).ancestors = loc.inits.reverse.map path := by
  -- an ancestor is spelled from the names that are left
  have hshortened : ∀ loc : Location, loc.IsProper →
      (path loc).ancestors = path loc :: (Path.shortened loc.reverse).map (Path.spell .root) := by
    intro loc hloc
    unfold Path.ancestors
    by_cases hne : loc = []
    · subst hne
      rfl
    · rw [split_path hloc hne]
      simp
  -- from the end, as a path is shortened from its end
  induction loc using List.reverseRecOn with
  | nil => rfl
  | append_singleton loc name ih =>
    obtain ⟨hfront, hname⟩ := isProper_concat.1 hloc
    -- the longest beginning is the location itself
    have hinits : (loc ++ [name]).inits = loc.inits ++ [loc ++ [name]] := by
      simp [List.inits_append]
    have hbehind : (loc.inits ++ [loc ++ [name]]).reverse = (loc ++ [name]) :: loc.inits.reverse := by
      simp
    rw [hshortened _ hloc, hinits, hbehind, List.map_cons, ← ih hfront, hshortened _ hfront]
    simp [Path.shortened, hname.isIdle_eq, dropWhile_isIdle hfront, Path.spell, path]

end Location

end TypeLeak
