import TypeLeak.FileTree.World
import TypeLeak.Proofs.PathNames

/-!
# Walking to a directory

The walk along a path is described here by its steps: `Leads` relates the directory where a walk
starts to the directory that its steps lead to, together with the number of links that may still be
followed.  A walk that goes on behind these steps goes on from that directory, so what a path
leads to can be told name by name: it is settled in the directory that the path before its last
name reaches.

## Key results

- `walk_append`: a walk along steps that lead somewhere goes on from there
- `walk_of_more_links`: more links than a walk needs make no difference to it
- `leads_of_walk`: a walk that does not fail leads somewhere at every point
- `Leads.mono`, `Reaches.mono`: steps lead to the same place in any tree with the same ways
- `leadsFrom_filter_isMove`: only the steps that move a walk tell where it leads
- `resolveFor_join`: a name joined to a path is looked up in the directory that the path reaches
- `seat_join`: and the entry of that name stands there
-/

namespace TypeLeak

/-- A step that moves a walk to another directory. -/
def Step.isMove : Step → Bool
  | .slash => false
  | .stay => false
  | .up => true
  | .enter _ => true

namespace FileTree

variable {t : FileTree}

/-! ## Trees with the same ways -/

/-- Every directory and every link of a tree is in another one too, so that all ways through the
    tree lead through the other one.  Files are on no way but at its end. -/
def WaysIn (t t' : FileTree) : Prop :=
  ∀ loc e, t.get? loc = some e → (∀ bytes executable, e ≠ .file bytes executable) →
    t'.get? loc = some e

/-- A directory is what stands at its location. -/
theorem isDirectory_iff {loc : Location} :
    t.isDirectory loc = true ↔ t.get? loc = some .directory := by
  simp [isDirectory]

namespace WaysIn

variable {t' : FileTree} (h : t.WaysIn t') {loc : Location}

include h

/-- A directory of the one tree is one of the other. -/
theorem get?_directory (hget : t.get? loc = some .directory) : t'.get? loc = some .directory :=
  h loc _ hget nofun

/-- So is a link, with the same target. -/
theorem get?_link {target : Path} (hget : t.get? loc = some (.link target)) :
    t'.get? loc = some (.link target) :=
  h loc _ hget nofun

/-- So a walk may pass in the other tree where it may pass in the first. -/
theorem isDirectory (hdir : t.isDirectory loc = true) : t'.isDirectory loc = true :=
  isDirectory_iff.2 (h.get?_directory (isDirectory_iff.1 hdir))

end WaysIn

/-- What is left after something was taken out was there before. -/
theorem waysIn_of_erase (t : FileTree) (seat : Location) : (t.erase seat).WaysIn t := by
  -- the top of the tree is a directory in every tree, so it is a case of its own
  intro loc e hget _
  rw [get?_erase] at hget
  split at hget
  · rename_i hnil
    rw [hnil]
    exact hget
  split at hget
  · exact nomatch hget
  · exact hget

/-- So was all but the file after a file was put in. -/
theorem waysIn_of_insert (t : FileTree) (seat : Location) (bytes : List UInt8)
    (executable : Bool) : (t.insert seat (.file bytes executable)).WaysIn t := by
  intro loc e hget hfile
  rw [get?_insert] at hget
  split at hget
  · rename_i hnil
    rw [hnil]
    exact hget
  split at hget
  · exact absurd (Option.some.inj hget).symm (hfile _ _)
  · exact hget

/-- What is put where nothing or a file stands is in no way. -/
theorem waysIn_insert {seat : Location} (new : Entry)
    (hseat : ∀ e, t.get? seat = some e → ∃ bytes executable, e = .file bytes executable) :
    t.WaysIn (t.insert seat new) := by
  intro loc e hget hfile
  rw [get?_insert]
  -- the top stays, the place had at most a file, and all else is as before
  split
  · rename_i hnil
    rw [hnil] at hget
    exact hget
  split
  · rename_i heq
    rw [heq] at hget
    obtain ⟨bytes, executable, he⟩ := hseat e hget
    exact absurd he (hfile bytes executable)
  · exact hget

/-! ## Steps that lead somewhere -/

/-- The directory from which the target of a link in `dir` is walked. -/
def linkStart (dir : Location) (target : Path) : Location := if target.isAbsolute then [] else dir

/-- From `dir` and with `links` links allowed, steps lead to `dir'` and leave `links'` links. -/
inductive Leads (t : FileTree) : Nat → Location → List Step → Nat → Location → Prop where
  | here {links : Nat} {dir : Location} : Leads t links dir [] links dir
  | slash {links links' : Nat} {dir dir' : Location} {rest : List Step} :
      Leads t links dir rest links' dir' → Leads t links dir (.slash :: rest) links' dir'
  | stay {links links' : Nat} {dir dir' : Location} {rest : List Step} :
      Leads t links dir rest links' dir' → Leads t links dir (.stay :: rest) links' dir'
  | up {links links' : Nat} {dir dir' : Location} {rest : List Step} :
      Leads t links dir.dropLast rest links' dir' → Leads t links dir (.up :: rest) links' dir'
  | enter {links links' : Nat} {dir dir' : Location} {name : OsText} {rest : List Step} :
      name.size ≤ maxName → t.get? (dir ++ [name]) = some .directory →
      Leads t links (dir ++ [name]) rest links' dir' →
      Leads t links dir (.enter name :: rest) links' dir'
  | follow {links links' : Nat} {dir dir' : Location} {name : OsText} {target : Path}
      {rest : List Step} :
      name.size ≤ maxName → t.get? (dir ++ [name]) = some (.link target) →
      Leads t links (linkStart dir target) (target.steps ++ rest) links' dir' →
      Leads t (links + 1) dir (.enter name :: rest) links' dir'

namespace Leads

/-- Steps are led along one part after the other. -/
theorem append_iff {links links₂ : Nat} {dir dir₂ : Location} {steps rest : List Step} :
    t.Leads links dir (steps ++ rest) links₂ dir₂ ↔
      ∃ links₁ dir₁, t.Leads links dir steps links₁ dir₁ ∧
        t.Leads links₁ dir₁ rest links₂ dir₂ := by
  constructor
  · intro h
    generalize hall : steps ++ rest = all at h
    -- induction on the walk along all steps, whose first one begins `steps` unless that is empty
    induction h generalizing steps with
    | here =>
      obtain ⟨rfl, rfl⟩ := List.append_eq_nil_iff.1 hall
      exact ⟨_, _, .here, .here⟩
    | slash h ih =>
      cases steps with
      | nil => cases hall; exact ⟨_, _, .here, .slash h⟩
      | cons step steps =>
        cases hall
        obtain ⟨_, _, hsteps, hrest⟩ := ih rfl
        exact ⟨_, _, .slash hsteps, hrest⟩
    | stay h ih =>
      cases steps with
      | nil => cases hall; exact ⟨_, _, .here, .stay h⟩
      | cons step steps =>
        cases hall
        obtain ⟨_, _, hsteps, hrest⟩ := ih rfl
        exact ⟨_, _, .stay hsteps, hrest⟩
    | up h ih =>
      cases steps with
      | nil => cases hall; exact ⟨_, _, .here, .up h⟩
      | cons step steps =>
        cases hall
        obtain ⟨_, _, hsteps, hrest⟩ := ih rfl
        exact ⟨_, _, .up hsteps, hrest⟩
    | enter hsize hget h ih =>
      cases steps with
      | nil => cases hall; exact ⟨_, _, .here, .enter hsize hget h⟩
      | cons step steps =>
        cases hall
        obtain ⟨_, _, hsteps, hrest⟩ := ih rfl
        exact ⟨_, _, .enter hsize hget hsteps, hrest⟩
    | follow hsize hget h ih =>
      cases steps with
      | nil => cases hall; exact ⟨_, _, .here, .follow hsize hget h⟩
      | cons step steps =>
        cases hall
        -- the steps of the link's target come before those that are left
        obtain ⟨_, _, hsteps, hrest⟩ := ih (by rw [List.append_assoc]; rfl)
        exact ⟨_, _, .follow hsize hget hsteps, hrest⟩
  · -- the other way round the walk along `rest` is put behind, rule by rule
    intro hright
    obtain ⟨links₁, dir₁, h, hrest⟩ := hright
    induction h with
    | here => exact hrest
    | slash _ ih => exact .slash (ih hrest)
    | stay _ ih => exact .stay (ih hrest)
    | up _ ih => exact .up (ih hrest)
    | enter hsize hget _ ih => exact .enter hsize hget (ih hrest)
    | follow hsize hget _ ih =>
      have h := ih hrest
      rw [List.append_assoc] at h
      exact .follow hsize hget h

/-- Steps lead to one place only. -/
theorem unique {links links₁ links₂ : Nat} {dir dir₁ dir₂ : Location} {steps : List Step}
    (h₁ : t.Leads links dir steps links₁ dir₁) (h₂ : t.Leads links dir steps links₂ dir₂) :
    links₁ = links₂ ∧ dir₁ = dir₂ := by
  induction h₁ with
  | here => cases h₂; exact ⟨rfl, rfl⟩
  | slash _ ih => cases h₂ with | slash h => exact ih h
  | stay _ ih => cases h₂ with | stay h => exact ih h
  | up _ ih => cases h₂ with | up h => exact ih h
  -- a name is entered or followed: what stands there allows only one of the two
  | enter _ hget _ ih =>
    cases h₂ with
    | enter _ _ h => exact ih h
    | follow _ hget' _ => rw [hget] at hget'; simp at hget'
  | follow _ hget _ ih =>
    cases h₂ with
    | enter _ hget' _ => rw [hget] at hget'; simp at hget'
    | follow _ hget' h =>
      rw [hget] at hget'
      cases hget'
      exact ih h

/-- Links are only used up. -/
theorem links_le {links links' : Nat} {dir dir' : Location} {steps : List Step}
    (h : t.Leads links dir steps links' dir') : links' ≤ links := by
  induction h with
  | here => exact Nat.le_refl _
  | slash _ ih => exact ih
  | stay _ ih => exact ih
  | up _ ih => exact ih
  | enter _ _ _ ih => exact ih
  | follow _ _ _ ih => exact Nat.le_succ_of_le ih

/-- Steps lead to the same place in a tree with the same ways. -/
theorem mono {t' : FileTree} (hways : t.WaysIn t') {links links' : Nat} {dir dir' : Location}
    {steps : List Step} (h : t.Leads links dir steps links' dir') :
    t'.Leads links dir steps links' dir' := by
  -- what stands in the way of the walk stands there in both trees
  induction h with
  | here => exact .here
  | slash _ ih => exact .slash ih
  | stay _ ih => exact .stay ih
  | up _ ih => exact .up ih
  | enter hsize hget _ ih => exact .enter hsize (hways.get?_directory hget) ih
  | follow hsize hget _ ih => exact .follow hsize (hways.get?_link hget) ih

/-- Steps lead to the same place if more links are allowed, and leave as many more. -/
theorem more {links links' : Nat} {dir dir' : Location} {steps : List Step}
    (h : t.Leads links dir steps links' dir') (extra : Nat) :
    t.Leads (links + extra) dir steps (links' + extra) dir' := by
  induction h with
  | here => exact .here
  | slash _ ih => exact .slash ih
  | stay _ ih => exact .stay ih
  | up _ ih => exact .up ih
  | enter hsize hget _ ih => exact .enter hsize hget ih
  | follow hsize hget _ ih =>
    -- the link that is used up is not one of the extra ones
    rw [Nat.add_right_comm]
    exact .follow hsize hget ih

/-- Only the steps that move a walk tell where it leads. -/
theorem filter_isMove {links links' : Nat} {dir dir' : Location} {steps : List Step} :
    t.Leads links dir (steps.filter Step.isMove) links' dir' ↔ t.Leads links dir steps links' dir' := by
  induction steps generalizing links dir with
  | nil => exact Iff.rfl
  | cons step steps ih =>
    have hsplit : t.Leads links dir (step :: steps) links' dir' ↔
        ∃ links₁ dir₁, t.Leads links dir [step] links₁ dir₁ ∧
          t.Leads links₁ dir₁ (steps.filter Step.isMove) links' dir' := by
      rw [← List.singleton_append, append_iff]
      simp only [ih]
    -- a step that does not move a walk leads nowhere, so it may be left out in front
    rw [hsplit, ← append_iff]
    cases step with
    | slash => exact ⟨.slash, fun h => by cases h with | slash h => exact h⟩
    | stay => exact ⟨.stay, fun h => by cases h with | stay h => exact h⟩
    | up => exact Iff.rfl
    | enter name => exact Iff.rfl

end Leads

/-- From `dir` and with `links` links allowed, the last of the steps enters `name` in `dir'`.
    Nothing is said about what stands there. -/
inductive Ends (t : FileTree) : Nat → Location → List Step → Location → OsText → Prop where
  | last {links : Nat} {dir : Location} {name : OsText} :
      name.size ≤ maxName → Ends t links dir [.enter name] dir name
  | slash {links : Nat} {dir dir' : Location} {rest : List Step} {name : OsText} :
      Ends t links dir rest dir' name → Ends t links dir (.slash :: rest) dir' name
  | stay {links : Nat} {dir dir' : Location} {rest : List Step} {name : OsText} :
      Ends t links dir rest dir' name → Ends t links dir (.stay :: rest) dir' name
  | up {links : Nat} {dir dir' : Location} {rest : List Step} {name : OsText} :
      Ends t links dir.dropLast rest dir' name → Ends t links dir (.up :: rest) dir' name
  | enter {links : Nat} {dir dir' : Location} {name name' : OsText} {rest : List Step} :
      name.size ≤ maxName → t.get? (dir ++ [name]) = some .directory →
      Ends t links (dir ++ [name]) rest dir' name' →
      Ends t links dir (.enter name :: rest) dir' name'
  | follow {links : Nat} {dir dir' : Location} {name name' : OsText} {target : Path}
      {rest : List Step} :
      name.size ≤ maxName → t.get? (dir ++ [name]) = some (.link target) →
      Ends t links (linkStart dir target) (target.steps ++ rest) dir' name' →
      Ends t (links + 1) dir (.enter name :: rest) dir' name'

namespace Ends

/-- Steps end at the same place in a tree with the same ways. -/
theorem mono {t' : FileTree} (hways : t.WaysIn t') {links : Nat} {dir dir' : Location}
    {steps : List Step} {name : OsText} (h : t.Ends links dir steps dir' name) :
    t'.Ends links dir steps dir' name := by
  induction h with
  | last hsize => exact .last hsize
  | slash _ ih => exact .slash ih
  | stay _ ih => exact .stay ih
  | up _ ih => exact .up ih
  | enter hsize hget _ ih => exact .enter hsize (hways.get?_directory hget) ih
  | follow hsize hget _ ih => exact .follow hsize (hways.get?_link hget) ih

/-- Steps end at the same place if more links are allowed. -/
theorem more {links more : Nat} {dir dir' : Location} {steps : List Step} {name : OsText}
    (h : t.Ends links dir steps dir' name) (hle : links ≤ more) :
    t.Ends more dir steps dir' name := by
  induction h generalizing more with
  | last hsize => exact .last hsize
  | slash _ ih => exact .slash (ih hle)
  | stay _ ih => exact .stay (ih hle)
  | up _ ih => exact .up (ih hle)
  | enter hsize hget _ ih => exact .enter hsize hget (ih hle)
  | follow hsize hget _ ih =>
    cases more with
    | zero => exact absurd hle (Nat.not_succ_le_zero _)
    | succ more => exact .follow hsize hget (ih (Nat.le_of_succ_le_succ hle))

end Ends

/-- What a walk has found is a directory, or it stands, or could stand, where the steps end. -/
def Finds (t : FileTree) (links : Nat) (dir : Location) (steps : List Step) (found : Target) :
    Prop :=
  (∃ loc, found = .present loc .directory) ∨
    ∃ dir' name, t.Ends links dir steps dir' name ∧
      ((found = .vacant (dir' ++ [name]) ∧ t.get? (dir' ++ [name]) = none) ∨
        ∃ bytes executable, found = .present (dir' ++ [name]) (.file bytes executable) ∧
          t.get? (dir' ++ [name]) = some (.file bytes executable))

/-- A place that can be written to is where the steps end: it is free, or a file stands there. -/
theorem Finds.ends {links : Nat} {dir loc : Location} {steps : List Step} {found : Target}
    (h : t.Finds links dir steps found)
    (hloc : found = .vacant loc ∨ ∃ bytes executable, found = .present loc (.file bytes executable)) :
    ∃ dir' name, t.Ends links dir steps dir' name ∧ loc = dir' ++ [name] ∧
      ∀ e, t.get? loc = some e → ∃ bytes executable, e = .file bytes executable := by
  rcases h with ⟨loc', hdir⟩ | ⟨dir', name, hends, hentry⟩
  · -- a directory is not written to
    rcases hloc with hloc | ⟨bytes, executable, hloc⟩ <;> rw [hdir] at hloc <;> cases hloc
  rcases hentry with ⟨hvacant, hget⟩ | ⟨bytes, executable, hpresent, hget⟩
  · rcases hloc with hloc | ⟨_, _, hloc⟩ <;> rw [hvacant] at hloc <;> cases hloc
    refine ⟨dir', name, hends, rfl, fun e he => ?_⟩
    rw [hget] at he
    exact nomatch he
  · rcases hloc with hloc | ⟨_, _, hloc⟩ <;> rw [hpresent] at hloc <;> cases hloc
    refine ⟨dir', name, hends, rfl, fun e he => ?_⟩
    rw [hget] at he
    exact ⟨bytes, executable, (Option.some.inj he).symm⟩

/-- No walk ends in a removed directory: only coming up to one does. -/
theorem Finds.ne_removed {links : Nat} {dir : Location} {steps : List Step} {found : Target}
    (h : t.Finds links dir steps found) : found ≠ .removed := by
  rintro rfl
  rcases h with ⟨loc, hdir⟩ | ⟨dir', name, -, ⟨hvacant, -⟩ | ⟨bytes, executable, hfile, -⟩⟩
  · cases hdir
  · cases hvacant
  · cases hfile

/-- Nor does one end at a link: a link is followed. -/
theorem Finds.ne_link {links : Nat} {dir loc : Location} {steps : List Step} {target : Path}
    {found : Target} (h : t.Finds links dir steps found) : found ≠ .present loc (.link target) := by
  rintro rfl
  rcases h with ⟨loc, hdir⟩ | ⟨dir', name, -, ⟨hvacant, -⟩ | ⟨bytes, executable, hfile, -⟩⟩
  · cases hdir
  · cases hvacant
  · cases hfile

/-! ## Walks along steps -/

section Walk

variable {purpose : Purpose} {links : Nat} {dir : Location}

/-- A walk with no step left ends where it is, if there is a directory. -/
theorem walk_nil : t.walk purpose links dir [] =
    if t.isDirectory dir then .ok (.present dir .directory) else .error .notFound := by
  cases links <;> rfl

/-- A slash leaves a walk where it is. -/
theorem walk_slash (rest : List Step) :
    t.walk purpose links dir (.slash :: rest) = t.walk purpose links dir rest := by
  cases links <;> rfl

/-- So does a single dot. -/
theorem walk_stay (rest : List Step) :
    t.walk purpose links dir (.stay :: rest) = t.walk purpose links dir rest := by
  cases links <;> rfl

/-- Two dots lead to the directory that holds the present one. -/
theorem walk_up (rest : List Step) :
    t.walk purpose links dir (.up :: rest) = t.walk purpose links dir.dropLast rest := by
  cases links <;> rfl

/-- What a walk makes of a name. -/
theorem walk_enter (name : OsText) (rest : List Step) :
    t.walk purpose links dir (.enter name :: rest) =
      if purpose = .writing ∧ onlySlashes rest then .error .isDirectory
      else if maxName < name.size then .error .nameTooLong
      else
        match t.get? (dir ++ [name]), links with
        | none, _ => if rest = [] then .ok (.vacant (dir ++ [name])) else .error .notFound
        | some .directory, links => t.walk purpose links (dir ++ [name]) rest
        | some (.file bytes executable), _ =>
          if rest = [] then .ok (.present (dir ++ [name]) (.file bytes executable))
          else .error .notDirectory
        | some (.link _), 0 => .error .tooManyLinks
        | some (.link target), links + 1 =>
          t.walk purpose links (linkStart dir target) (target.steps ++ rest) := by
  -- with a link left or none, what stands at the name is looked at in the same way
  cases links with
  | zero =>
    rw [walk, walkSteps]
    cases t.get? (dir ++ [name]) with
    | none => rfl
    | some e => cases e <;> rfl
  | succ links =>
    rw [walk, walkSteps]
    cases t.get? (dir ++ [name]) with
    | none => rfl
    | some e => cases e <;> rfl

/-- A walk along steps that lead somewhere goes on from there, provided that it does not look
    ahead: a slash that ends the walk of a file to be written is seen early. -/
theorem walk_append {links' : Nat} {dir' : Location} {steps rest : List Step}
    (h : t.Leads links dir steps links' dir')
    (hrest : purpose = .reading ∨ ∃ step ∈ rest, step ≠ .slash) :
    t.walk purpose links dir (steps ++ rest) = t.walk purpose links' dir' rest := by
  -- from no point on are all steps slashes
  have hahead : ∀ between, ¬ (purpose = .writing ∧ onlySlashes (between ++ rest) = true) := by
    rintro between ⟨hwriting, hslashes⟩
    rcases hrest with hreading | ⟨step, hstep, hne⟩
    · rw [hreading] at hwriting
      exact nomatch hwriting
    · simp only [onlySlashes, Bool.and_eq_true, List.all_eq_true, List.mem_append, beq_iff_eq] at hslashes
      exact hne (hslashes.2 step (.inr hstep))
  induction h with
  | here => rfl
  | slash _ ih => rw [List.cons_append, walk_slash, ih]
  | stay _ ih => rw [List.cons_append, walk_stay, ih]
  | up _ ih => rw [List.cons_append, walk_up, ih]
  | enter hsize hget _ ih =>
    rw [List.cons_append, walk_enter, if_neg (hahead _), if_neg (Nat.not_lt.2 hsize), hget]
    exact ih
  -- the target's steps stand before those of the path, so `rest` is still behind all of them
  | follow hsize hget _ ih =>
    rw [List.cons_append, walk_enter, if_neg (hahead _), if_neg (Nat.not_lt.2 hsize), hget]
    rw [List.append_assoc] at ih
    exact ih

/-- Walks that follow links alike, unless they run out of links, are alike. -/
private theorem walkSteps_of_follow {follow follow' : Location → List Step → Except OsError Target}
    (hfollow : ∀ dir steps, follow dir steps ≠ .error .tooManyLinks →
      follow' dir steps = follow dir steps)
    {steps : List Step} (h : t.walkSteps purpose follow dir steps ≠ .error .tooManyLinks) :
    t.walkSteps purpose follow' dir steps = t.walkSteps purpose follow dir steps := by
  induction steps generalizing dir with
  | nil => rfl
  | cons step steps ih =>
    cases step with
    | slash => exact ih h
    | stay => exact ih h
    | up => exact ih h
    | enter name =>
      -- each refusal is the same on both sides; only behind a link do they differ
      simp only [walkSteps] at h ⊢
      split
      · rfl
      rename_i hwriting
      rw [if_neg hwriting] at h
      split
      · rfl
      rename_i hsize
      rw [if_neg hsize] at h
      cases hget : t.get? (dir ++ [name]) with
      | none => rfl
      | some e =>
        rw [hget] at h
        cases e with
        | directory => exact ih h
        | file bytes executable => rfl
        | link target => exact hfollow _ _ h

/-- A walk that needs no more links than are allowed ends the same if more are. -/
theorem walk_of_more_links {steps : List Step} {more : Nat} (hle : links ≤ more)
    (h : t.walk purpose links dir steps ≠ .error .tooManyLinks) :
    t.walk purpose more dir steps = t.walk purpose links dir steps := by
  -- on the links allowed; with none, a link that is met contradicts `h`
  induction links generalizing more dir steps with
  | zero =>
    cases more with
    | zero => rfl
    | succ more => exact walkSteps_of_follow (fun _ _ hfollow => absurd rfl hfollow) h
  | succ links ih =>
    cases more with
    | zero => exact absurd hle (Nat.not_succ_le_zero _)
    | succ more =>
      exact walkSteps_of_follow (fun _ _ hfollow => ih (Nat.le_of_succ_le_succ hle) hfollow) h

/-- A walk leads somewhere at every point, if it does behind the links that it follows. -/
private theorem leads_of_walk_of_follow {steps rest : List Step} {found : Target}
    (hfollow : ∀ fewer dir steps, links = fewer + 1 →
      t.walk purpose fewer dir (steps ++ rest) = .ok found →
      ∃ links' dir', t.Leads fewer dir steps links' dir')
    (h : t.walk purpose links dir (steps ++ rest) = .ok found)
    (hend : rest = [] → ∃ loc, found = .present loc .directory) :
    ∃ links' dir', t.Leads links dir steps links' dir' := by
  -- induction on the steps; a link that is followed is left to the induction on the links
  induction steps generalizing dir with
  | nil => exact ⟨links, dir, .here⟩
  | cons step steps ih =>
    cases step with
    | slash =>
      rw [List.cons_append, walk_slash] at h
      obtain ⟨links', dir', hleads⟩ := ih h
      exact ⟨links', dir', .slash hleads⟩
    | stay =>
      rw [List.cons_append, walk_stay] at h
      obtain ⟨links', dir', hleads⟩ := ih h
      exact ⟨links', dir', .stay hleads⟩
    | up =>
      rw [List.cons_append, walk_up] at h
      obtain ⟨links', dir', hleads⟩ := ih h
      exact ⟨links', dir', .up hleads⟩
    | enter name =>
      have hlast : steps ++ rest = [] → ∃ loc, found = .present loc .directory :=
        fun hnil => hend (List.append_eq_nil_iff.1 hnil).2
      rw [List.cons_append, walk_enter] at h
      split at h
      · exact nomatch h
      split at h
      · exact nomatch h
      rename_i hsize
      have hsize := Nat.not_lt.1 hsize
      split at h
      · -- a free name ends the walk, and is no directory
        split at h
        · rename_i hnil
          obtain ⟨loc, hloc⟩ := hlast hnil
          rw [hloc] at h
          exact nomatch h
        · exact nomatch h
      · rename_i hget
        obtain ⟨links', dir', hleads⟩ := ih h
        exact ⟨links', dir', .enter hsize hget hleads⟩
      · -- so does a file
        split at h
        · rename_i hnil
          obtain ⟨loc, hloc⟩ := hlast hnil
          rw [hloc] at h
          exact nomatch h
        · exact nomatch h
      · exact nomatch h
      · rename_i hget
        rw [← List.append_assoc] at h
        obtain ⟨links', dir', hleads⟩ := hfollow _ _ _ rfl h
        exact ⟨links', dir', .follow hsize hget hleads⟩

/-- A walk that does not fail leads somewhere at every point before its last name, and at its end
    if that is a directory. -/
theorem leads_of_walk {steps rest : List Step} {found : Target}
    (h : t.walk purpose links dir (steps ++ rest) = .ok found)
    (hend : rest = [] → ∃ loc, found = .present loc .directory) :
    ∃ links' dir', t.Leads links dir steps links' dir' := by
  -- on the links, with the induction on the steps inside
  induction links generalizing dir steps with
  | zero => exact leads_of_walk_of_follow (fun _ _ _ hlinks => nomatch hlinks) h hend
  | succ links ih =>
    refine leads_of_walk_of_follow (fun fewer dir' steps' hlinks h' => ?_) h hend
    cases hlinks
    exact ih h'

/-- A walk finds what its steps end at, if it does behind the links that it follows. -/
private theorem finds_of_walk_of_follow {steps : List Step} {found : Target}
    (hfollow : ∀ fewer dir steps, links = fewer + 1 →
      t.walk purpose fewer dir steps = .ok found → t.Finds fewer dir steps found)
    (h : t.walk purpose links dir steps = .ok found) : t.Finds links dir steps found := by
  -- the same two inductions, one inside the other
  induction steps generalizing dir with
  | nil =>
    rw [walk_nil] at h
    split at h
    · exact .inl ⟨dir, (Except.ok.inj h).symm⟩
    · exact nomatch h
  | cons step steps ih =>
    cases step with
    | slash =>
      rw [walk_slash] at h
      exact (ih h).imp_right fun ⟨dir', name, hends, hfound⟩ => ⟨dir', name, .slash hends, hfound⟩
    | stay =>
      rw [walk_stay] at h
      exact (ih h).imp_right fun ⟨dir', name, hends, hfound⟩ => ⟨dir', name, .stay hends, hfound⟩
    | up =>
      rw [walk_up] at h
      exact (ih h).imp_right fun ⟨dir', name, hends, hfound⟩ => ⟨dir', name, .up hends, hfound⟩
    | enter name =>
      rw [walk_enter] at h
      split at h
      · exact nomatch h
      split at h
      · exact nomatch h
      rename_i hsize
      have hsize := Nat.not_lt.1 hsize
      split at h
      · rename_i hget
        split at h
        · rename_i hnil
          subst hnil
          exact .inr ⟨dir, name, .last hsize, .inl ⟨(Except.ok.inj h).symm, hget⟩⟩
        · exact nomatch h
      · rename_i hget
        exact (ih h).imp_right fun ⟨dir', name, hends, hfound⟩ =>
          ⟨dir', name, .enter hsize hget hends, hfound⟩
      · rename_i bytes executable hget
        split at h
        · rename_i hnil
          subst hnil
          exact .inr ⟨dir, name, .last hsize, .inr ⟨bytes, executable, (Except.ok.inj h).symm, hget⟩⟩
        · exact nomatch h
      · exact nomatch h
      · rename_i hget
        exact (hfollow _ _ _ rfl h).imp_right fun ⟨dir', name, hends, hfound⟩ =>
          ⟨dir', name, .follow hsize hget hends, hfound⟩

/-- A walk that does not fail ends in a directory, or at a name that is free or that of a file. -/
theorem finds_of_walk {steps : List Step} {found : Target}
    (h : t.walk purpose links dir steps = .ok found) : t.Finds links dir steps found := by
  induction links generalizing dir steps with
  | zero => exact finds_of_walk_of_follow (fun _ _ _ hlinks => nomatch hlinks) h
  | succ links ih =>
    refine finds_of_walk_of_follow (fun fewer dir' steps' hlinks h' => ?_) h
    cases hlinks
    exact ih h'

/-- A walk for reading that ends at the name of a file finds the file. -/
theorem walk_of_ends {steps : List Step} {dir' : Location} {name : OsText} {bytes : List UInt8}
    {executable : Bool} (h : t.Ends links dir steps dir' name)
    (hfile : t.get? (dir' ++ [name]) = some (.file bytes executable)) :
    t.walk .reading links dir steps = .ok (.present (dir' ++ [name]) (.file bytes executable)) := by
  induction h with
  | last hsize =>
    rw [walk_enter, if_neg (by simp), if_neg (Nat.not_lt.2 hsize), hfile]
    rfl
  | slash _ ih => rw [walk_slash, ih hfile]
  | stay _ ih => rw [walk_stay, ih hfile]
  | up _ ih => rw [walk_up, ih hfile]
  | enter hsize hget _ ih =>
    rw [walk_enter, if_neg (by simp), if_neg (Nat.not_lt.2 hsize), hget]
    exact ih hfile
  -- the link costs one of those allowed, and the rest goes as before
  | follow hsize hget _ ih =>
    rw [walk_enter, if_neg (by simp), if_neg (Nat.not_lt.2 hsize), hget]
    exact ih hfile

/-- A walk for reading ends in a directory exactly if its steps lead there. -/
theorem walk_eq_directory_iff {steps : List Step} {dir' : Location} :
    t.walk .reading links dir steps = .ok (.present dir' .directory) ↔
      (∃ links', t.Leads links dir steps links' dir') ∧ t.isDirectory dir' = true := by
  -- where the steps lead, the walk is at its end
  have hwalk : ∀ {links' loc}, t.Leads links dir steps links' loc →
      t.walk .reading links dir steps =
        if t.isDirectory loc then .ok (.present loc .directory) else .error .notFound := by
    intro links' loc hleads
    have happend : t.walk .reading links dir (steps ++ []) = t.walk .reading links' loc [] :=
      walk_append hleads (.inl rfl)
    rwa [List.append_nil, walk_nil] at happend
  constructor
  · intro h
    have happend : t.walk .reading links dir (steps ++ []) = .ok (.present dir' .directory) := by
      rwa [List.append_nil]
    obtain ⟨links', loc, hleads⟩ := leads_of_walk happend fun _ => ⟨dir', rfl⟩
    rw [hwalk hleads] at h
    split at h
    · rename_i hdir
      cases h
      exact ⟨⟨links', hleads⟩, hdir⟩
    · exact nomatch h
  · intro hright
    obtain ⟨⟨links', hleads⟩, hdir⟩ := hright
    rw [hwalk hleads, if_pos hdir]

end Walk

end FileTree

/-! ## Paths from a standpoint -/

namespace Standpoint

/-- Where no directory is lost, all steps are left. -/
theorem comeUp_zero (steps : List Step) : comeUp 0 steps = .ok (some steps) := by
  cases steps <;> rfl

/-- A name behind steps that come up is found below them; nothing is found in a removed
    directory. -/
theorem comeUp_concat_enter (lost : Nat) (steps : List Step) (name : OsText) :
    comeUp lost (steps ++ [.enter name]) =
      match comeUp lost steps with
      | .ok (some rest) => .ok (some (rest ++ [.enter name]))
      | .ok none => .error .notFound
      | .error e => .error e := by
  induction steps generalizing lost with
  | nil => cases lost <;> rfl
  | cons step steps ih =>
    -- once all that is lost is come up from, the name is behind the steps that are left
    cases lost with
    | zero => rfl
    | succ lost =>
      cases step with
      | slash => exact ih (lost + 1)
      | stay => exact ih (lost + 1)
      | up => exact ih lost
      | enter _ => rfl

/-- Only the steps that move a walk tell how it comes up. -/
theorem comeUp_filter_isMove (lost : Nat) (steps : List Step) :
    comeUp lost (steps.filter Step.isMove) =
      (comeUp lost steps).map (Option.map (List.filter Step.isMove)) := by
  induction steps generalizing lost with
  | nil => cases lost <;> rfl
  | cons step steps ih =>
    cases lost with
    | zero => rw [comeUp_zero, comeUp_zero]; rfl
    | succ lost =>
      cases step with
      | slash => exact ih (lost + 1)
      | stay => exact ih (lost + 1)
      | up => exact ih lost
      | enter _ => rfl

/-- What is left after coming up is a last part of the steps. -/
theorem suffix_of_comeUp {lost : Nat} {steps rest : List Step}
    (h : comeUp lost steps = .ok (some rest)) : rest <:+ steps := by
  induction steps generalizing lost with
  | nil =>
    -- with nothing lost, all steps that are there are left
    cases lost with
    | zero => cases h; exact List.suffix_refl _
    | succ lost => exact nomatch h
  | cons step steps ih =>
    cases lost with
    | zero => cases h; exact List.suffix_refl _
    | succ lost =>
      cases step with
      | slash => exact (ih h).trans (List.suffix_cons _ _)
      | stay => exact (ih h).trans (List.suffix_cons _ _)
      | up => exact (ih h).trans (List.suffix_cons _ _)
      | enter _ => exact nomatch h

end Standpoint

namespace World

open FileTree (maxLinks)

variable {w : World}

/-- Where a walk starts. -/
def startOf (w : World) (absolute : Bool) : Standpoint :=
  if absolute then Standpoint.inside [] else w.cwd

/-- From the root or the current directory, steps lead to `dir` and leave `links` links. -/
def LeadsFrom (w : World) (absolute : Bool) (steps : List Step) (links : Nat) (dir : Location) :
    Prop :=
  w.tree.isDirectory (w.startOf absolute).dir = true ∧
    ∃ rest, Standpoint.comeUp (w.startOf absolute).lost steps = .ok (some rest) ∧
      w.tree.Leads maxLinks (w.startOf absolute).dir rest links dir

/-- A path leads to a directory, and `links` links may still be followed from there. -/
def Reaches (w : World) (p : Path) (links : Nat) (dir : Location) : Prop :=
  p.holdsNul = false ∧ w.LeadsFrom p.isAbsolute p.steps links dir

/-- From a standpoint too, steps lead to one place only. -/
theorem LeadsFrom.unique {absolute : Bool} {steps : List Step} {links₁ links₂ : Nat}
    {dir₁ dir₂ : Location} (h₁ : w.LeadsFrom absolute steps links₁ dir₁)
    (h₂ : w.LeadsFrom absolute steps links₂ dir₂) : links₁ = links₂ ∧ dir₁ = dir₂ := by
  obtain ⟨-, rest₁, hup₁, hleads₁⟩ := h₁
  obtain ⟨-, rest₂, hup₂, hleads₂⟩ := h₂
  -- what is left after coming up is the same, so `Leads.unique` applies to it
  rw [hup₁] at hup₂
  cases hup₂
  exact hleads₁.unique hleads₂

/-- A path reaches one directory only. -/
theorem Reaches.unique {p : Path} {links₁ links₂ : Nat} {dir₁ dir₂ : Location}
    (h₁ : w.Reaches p links₁ dir₁) (h₂ : w.Reaches p links₂ dir₂) :
    links₁ = links₂ ∧ dir₁ = dir₂ :=
  h₁.2.unique h₂.2

/-- No more links are left than were allowed. -/
theorem Reaches.links_le {p : Path} {links : Nat} {dir : Location} (h : w.Reaches p links dir) :
    links ≤ maxLinks := by
  obtain ⟨-, -, rest, -, hleads⟩ := h
  exact hleads.links_le

/-- A path reaches the same directory in a tree with the same ways. -/
theorem Reaches.mono {w' : World} {p : Path} {links : Nat} {dir : Location}
    (h : w.Reaches p links dir) (hcwd : w'.cwd = w.cwd) (hways : w.tree.WaysIn w'.tree) :
    w'.Reaches p links dir := by
  obtain ⟨hnul, hstart, rest, hup, hleads⟩ := h
  have hsame : w'.startOf p.isAbsolute = w.startOf p.isAbsolute := by
    unfold startOf
    rw [hcwd]
  unfold Reaches LeadsFrom
  rw [hsame]
  exact ⟨hnul, hways.isDirectory hstart, rest, hup, hleads.mono hways⟩

/-- From a standpoint too, only the steps that move a walk tell where it leads. -/
theorem leadsFrom_filter_isMove {absolute : Bool} {steps : List Step} {links : Nat}
    {dir : Location} :
    w.LeadsFrom absolute (steps.filter Step.isMove) links dir ↔
      w.LeadsFrom absolute steps links dir := by
  unfold LeadsFrom
  rw [Standpoint.comeUp_filter_isMove]
  apply and_congr_right
  intro _
  -- coming up fails in both, ends in a removed directory in both, or leaves steps that move alike
  cases Standpoint.comeUp (w.startOf absolute).lost steps with
  | error e => simp [Except.map]
  | ok rest =>
    cases rest with
    | none => simp [Except.map]
    | some rest =>
      simp only [Except.map, Option.map_some, Except.ok.injEq, Option.some.injEq,
        exists_eq_left', FileTree.Leads.filter_isMove]

/-- A slash at the end leads nowhere else. -/
theorem leadsFrom_concat_slash {absolute : Bool} {steps : List Step} {links : Nat}
    {dir : Location} :
    w.LeadsFrom absolute (steps ++ [.slash]) links dir ↔ w.LeadsFrom absolute steps links dir := by
  have hmoves : (steps ++ [Step.slash]).filter Step.isMove = steps.filter Step.isMove := by
    simp [Step.isMove]
  rw [← leadsFrom_filter_isMove, hmoves, leadsFrom_filter_isMove]

/-- A walk first comes up from the directories that are lost, and then goes along the rest. -/
theorem walkFrom_eq (purpose : Purpose) (absolute : Bool) (steps : List Step) :
    w.tree.walkFrom purpose w.cwd absolute steps =
      match Standpoint.comeUp (w.startOf absolute).lost steps with
      | .error e => .error e
      | .ok none => .ok .removed
      | .ok (some rest) =>
        if w.tree.isDirectory (w.startOf absolute).dir then
          w.tree.walk purpose maxLinks (w.startOf absolute).dir rest
        else .error .notFound := rfl

/-- The last name on a walk is looked up in the directory that the steps before it lead to. -/
theorem walkFrom_concat_enter {purpose : Purpose} {absolute : Bool} {steps : List Step}
    {name : OsText} {found : Target} :
    w.tree.walkFrom purpose w.cwd absolute (steps ++ [.enter name]) = .ok found ↔
      ∃ links dir, w.LeadsFrom absolute steps links dir ∧
        w.tree.walk purpose links dir [.enter name] = .ok found := by
  have hlast : ∃ step ∈ [Step.enter name], step ≠ .slash := ⟨_, List.mem_singleton_self _, by simp⟩
  rw [walkFrom_eq, Standpoint.comeUp_concat_enter]
  unfold LeadsFrom
  -- the name is behind whatever is left of the steps after coming up
  cases Standpoint.comeUp (w.startOf absolute).lost steps with
  | error e => simp
  | ok rest =>
    cases rest with
    | none => simp
    | some rest =>
      simp only [Except.ok.injEq, Option.some.injEq, exists_eq_left']
      constructor
      · intro h
        split at h
        · rename_i hdir
          obtain ⟨links, dir, hleads⟩ := FileTree.leads_of_walk h (by simp)
          rw [FileTree.walk_append hleads (.inr hlast)] at h
          exact ⟨links, dir, ⟨hdir, hleads⟩, h⟩
        · exact nomatch h
      · intro hright
        obtain ⟨links, dir, ⟨hdir, hleads⟩, h⟩ := hright
        rw [if_pos hdir, FileTree.walk_append hleads (.inr hlast), h]

/-- A walk for reading ends in a directory exactly if its steps lead there. -/
theorem walkFrom_eq_directory_iff {absolute : Bool} {steps : List Step} {dir : Location} :
    w.tree.walkFrom .reading w.cwd absolute steps = .ok (.present dir .directory) ↔
      (∃ links, w.LeadsFrom absolute steps links dir) ∧ w.tree.isDirectory dir = true := by
  rw [walkFrom_eq]
  unfold LeadsFrom
  -- only steps that come up all the way walk on in the tree
  cases Standpoint.comeUp (w.startOf absolute).lost steps with
  | error e => simp
  | ok rest =>
    cases rest with
    | none => simp
    | some rest =>
      simp only [Except.ok.injEq, Option.some.injEq, exists_eq_left']
      by_cases hdir : w.tree.isDirectory (w.startOf absolute).dir = true
      · rw [if_pos hdir, FileTree.walk_eq_directory_iff]
        simp only [hdir, true_and]
      · rw [if_neg hdir]
        simp [hdir]

/-- What a path leads to is found by a walk along the last part of its steps. -/
theorem finds_of_lookUp {purpose : Purpose} {p : Path} {found : Target}
    (h : w.tree.lookUp purpose w.cwd p = .ok found) :
    found = .removed ∨ (w.tree.isDirectory (w.startOf p.isAbsolute).dir = true ∧
      ∃ rest, rest <:+ p.steps ∧
        w.tree.Finds maxLinks (w.startOf p.isAbsolute).dir rest found) := by
  unfold FileTree.lookUp at h
  split at h
  · exact nomatch h
  split at h
  · exact nomatch h
  rw [walkFrom_eq] at h
  -- coming up fails, ends in a removed directory, or leaves the rest of the steps
  split at h
  · exact nomatch h
  · exact .inl (Except.ok.inj h).symm
  · rename_i rest hup
    split at h
    · rename_i hdir
      exact .inr ⟨hdir, rest, Standpoint.suffix_of_comeUp hup, FileTree.finds_of_walk h⟩
    · exact nomatch h

/-- There is a file at a path exactly if the path leads to one. -/
theorem isFile_eq_true_iff {p : Path} :
    w.isFile p = true ↔
      ∃ loc bytes executable, w.resolve p = .ok (.present loc (.file bytes executable)) := by
  unfold isFile
  -- `isFile` asks for the kind of what is found
  cases w.resolve p with
  | error cause => simp
  | ok found =>
    cases found with
    | present loc e => cases e <;> simp
    | vacant loc => simp
    | removed => simp

/-- The operating system looks a path up only if it is not too long. -/
theorem lookUp_of_resolveFor {purpose : Purpose} {p : Path} {found : Target}
    (h : w.tree.resolveFor purpose w.cwd p = .ok found) :
    w.tree.lookUp purpose w.cwd p = .ok found := by
  unfold FileTree.resolveFor at h
  split at h
  · exact nomatch h
  · exact h

/-- A path that reaches a directory leads to it, however long it is. -/
theorem lookUp_of_reaches {p : Path} {links : Nat} {dir : Location} (h : w.Reaches p links dir)
    (hp : p.text ≠ .empty) (hdir : w.tree.isDirectory dir = true) :
    w.tree.lookUp .reading w.cwd p = .ok (.present dir .directory) := by
  unfold FileTree.lookUp
  rw [h.1, if_neg Bool.false_ne_true, if_neg hp]
  exact walkFrom_eq_directory_iff.2 ⟨⟨links, h.2⟩, hdir⟩

/-! ## Names joined to paths -/

variable {p : Path} {name : OsText}

/-- The steps of a joined path lead to the name from where the steps of the path lead to. -/
private theorem steps_join (w : World) (p : Path) (hname : Path.IsName name) :
    ∃ steps, (p.join ⟨name⟩).steps = steps ++ [.enter name] ∧
      ∀ links dir, w.LeadsFrom p.isAbsolute steps links dir ↔
        w.LeadsFrom p.isAbsolute p.steps links dir := by
  obtain ⟨-, steps, hsteps, hbefore⟩ := Path.join_name p hname
  refine ⟨steps, hsteps, fun links dir => ?_⟩
  rcases hbefore with hbefore | hbefore
  · rw [hbefore]
  · rw [hbefore, leadsFrom_concat_slash]

/-- A path that a name is joined to reaches a directory if the joined path does. -/
theorem reaches_of_join (hname : Path.IsName name) {links : Nat} {dir : Location}
    (h : w.Reaches (p.join ⟨name⟩) links dir) : ∃ links' dir', w.Reaches p links' dir' := by
  obtain ⟨steps, hsteps, hbefore⟩ := steps_join w p hname
  obtain ⟨hnul, hstart, rest, hup, hleads⟩ := h
  rw [Path.holdsNul_join p hname, Bool.or_eq_false_iff] at hnul
  rw [(Path.join_name p hname).1] at hstart hup hleads
  rw [hsteps, Standpoint.comeUp_concat_enter] at hup
  -- if the walk comes up at all, it does so before the name
  split at hup
  · rename_i rest' hup'
    cases hup
    obtain ⟨links', dir', hleads', -⟩ := FileTree.Leads.append_iff.1 hleads
    exact ⟨links', dir', hnul.1, (hbefore links' dir').1 ⟨hstart, rest', hup', hleads'⟩⟩
  · exact nomatch hup
  · exact nomatch hup

/-- A directory that has been removed is reached by no path. -/
theorem not_reaches_of_removed (h : w.resolve p = .ok .removed) {links : Nat} {dir : Location} :
    ¬ w.Reaches p links dir := by
  rintro ⟨-, -, rest, hup, -⟩
  have hfound : w.tree.lookUp .reading w.cwd p = .ok .removed := lookUp_of_resolveFor h
  unfold FileTree.lookUp at hfound
  split at hfound
  · exact nomatch hfound
  split at hfound
  · exact nomatch hfound
  rw [walkFrom_eq, hup] at hfound
  dsimp only at hfound
  split at hfound
  · exact (FileTree.finds_of_walk hfound).ne_removed rfl
  · exact nomatch hfound

/-- A name joined to a path is looked up in the directory that the path reaches. -/
theorem resolveFor_join (hname : Path.IsName name) {purpose : Purpose} {found : Target} :
    w.tree.resolveFor purpose w.cwd (p.join ⟨name⟩) = .ok found ↔
      (p.join ⟨name⟩).isTooLong = false ∧ (Path.mk name).holdsNul = false ∧
        ∃ links dir, w.Reaches p links dir ∧
          w.tree.walk purpose links dir [.enter name] = .ok found := by
  obtain ⟨steps, hsteps, hleads⟩ := steps_join w p hname
  unfold FileTree.resolveFor FileTree.lookUp Reaches
  rw [Path.holdsNul_join p hname, (Path.join_name p hname).1, hsteps,
    if_neg (Path.join_text_ne hname)]
  -- what is left is the last name of a walk, unless the path is refused before
  cases p.holdsNul <;> cases (Path.mk name).holdsNul <;> cases (p.join ⟨name⟩).isTooLong <;>
    simp [walkFrom_concat_enter, hleads]

/-- So it is when the path is only read. -/
theorem resolve_join (hname : Path.IsName name) {found : Target} :
    w.resolve (p.join ⟨name⟩) = .ok found ↔
      (p.join ⟨name⟩).isTooLong = false ∧ (Path.mk name).holdsNul = false ∧
        ∃ links dir, w.Reaches p links dir ∧
          w.tree.walk .reading links dir [.enter name] = .ok found := by
  unfold resolve FileTree.resolve
  exact resolveFor_join hname

/-- What a name joined to a path leads to is settled in the directory that the path reaches. -/
theorem resolve_join_iff_of_reaches (hname : Path.IsName name) {links : Nat} {dir : Location}
    (hreach : w.Reaches p links dir) {found : Target} :
    w.resolve (p.join ⟨name⟩) = .ok found ↔
      (p.join ⟨name⟩).isTooLong = false ∧ (Path.mk name).holdsNul = false ∧
        w.tree.walk .reading links dir [.enter name] = .ok found := by
  rw [resolve_join hname]
  constructor
  · intro hleft
    obtain ⟨hshort, hnul, links', dir', hreach', hwalk⟩ := hleft
    -- the directory found here is the one that is given
    obtain ⟨rfl, rfl⟩ := hreach.unique hreach'
    exact ⟨hshort, hnul, hwalk⟩
  · intro hright
    obtain ⟨hshort, hnul, hwalk⟩ := hright
    exact ⟨hshort, hnul, links, dir, hreach, hwalk⟩

/-- So is what becomes of it otherwise, if the joined path is not refused. -/
theorem resolve_join_of_reaches (hname : Path.IsName name)
    (hshort : (p.join ⟨name⟩).isTooLong = false) (hnul : (Path.mk name).holdsNul = false)
    {links : Nat} {dir : Location} (hreach : w.Reaches p links dir) :
    w.resolve (p.join ⟨name⟩) = w.tree.walk .reading links dir [.enter name] := by
  obtain ⟨steps, hsteps, hleads⟩ := steps_join w p hname
  obtain ⟨hstart, rest, hup, hrest⟩ := (hleads links dir).2 hreach.2
  unfold resolve FileTree.resolve FileTree.resolveFor FileTree.lookUp
  rw [hshort, Path.holdsNul_join p hname, hreach.1, hnul, if_neg (by simp), if_neg (by simp),
    if_neg (Path.join_text_ne hname), (Path.join_name p hname).1, hsteps, walkFrom_eq,
    Standpoint.comeUp_concat_enter, hup]
  exact (if_pos hstart).trans (FileTree.walk_append hrest (.inl rfl))

/-- A path that ends with a name leads to nothing that has been removed. -/
theorem exists?_join_iff (hname : Path.IsName name) :
    w.exists? (p.join ⟨name⟩) = true ↔
      ∃ loc e, w.resolve (p.join ⟨name⟩) = .ok (.present loc e) := by
  -- the walk of the name alone does not end in a removed directory
  have hremoved : w.resolve (p.join ⟨name⟩) ≠ .ok .removed := by
    intro h
    obtain ⟨-, -, links, dir, -, hwalk⟩ := (resolve_join hname).1 h
    exact (FileTree.finds_of_walk hwalk).ne_removed rfl
  unfold exists?
  cases h : w.resolve (p.join ⟨name⟩) with
  | error e => simp
  | ok found =>
    cases found with
    | present loc e => simp
    | vacant loc => simp
    | removed => exact absurd h hremoved

/-- The entry of a name joined to a path stands in the directory that the path reaches. -/
theorem seat_join (hname : Path.IsName name) {loc : Location} :
    w.tree.seat w.cwd (p.join ⟨name⟩) = .ok loc ↔
      (p.join ⟨name⟩).isTooLong = false ∧ (Path.mk name).holdsNul = false ∧
        name.size ≤ maxName ∧
        ∃ links dir, w.Reaches p links dir ∧ w.tree.isDirectory dir = true ∧
          dir ++ [name] = loc := by
  obtain ⟨steps, hsteps, hleads⟩ := steps_join w p hname
  -- what the directory of the entry is, and when there is none
  have hdir : ∀ dir, w.tree.walkFrom .reading w.cwd p.isAbsolute steps =
      .ok (.present dir .directory) ↔
        (∃ links, w.LeadsFrom p.isAbsolute p.steps links dir) ∧ w.tree.isDirectory dir = true := by
    intro dir
    rw [walkFrom_eq_directory_iff]
    simp only [hleads]
  unfold FileTree.seat Reaches
  rw [Path.holdsNul_join p hname, (Path.join_name p hname).1, hsteps, List.getLast?_concat,
    List.dropLast_concat]
  dsimp only
  cases hnul : p.holdsNul with
  | true => simp
  | false =>
    rw [Bool.false_or]
    cases (Path.mk name).holdsNul with
    | true => simp
    | false =>
      cases (p.join ⟨name⟩).isTooLong with
      | true => simp
      | false =>
        simp only [Bool.false_eq_true, if_false, true_and]
        constructor
        · intro h
          -- only a directory has room for the entry
          split at h
          · rename_i dir hwalk
            obtain ⟨⟨links, hreach⟩, hisdir⟩ := (hdir dir).1 hwalk
            split at h
            · exact nomatch h
            · rename_i hsize
              exact ⟨Nat.not_lt.1 hsize, links, dir, hreach, hisdir, Except.ok.inj h⟩
          · exact nomatch h
          · exact nomatch h
          · exact nomatch h
        · intro hright
          obtain ⟨hsize, links, dir, hreach, hisdir, rfl⟩ := hright
          rw [(hdir dir).2 ⟨⟨links, hreach⟩, hisdir⟩]
          simp only
          rw [if_neg (Nat.not_lt.2 hsize)]

/-- The entry of a name joined to a path stands at the same place in a tree with the same ways. -/
theorem seat_mono {w' : World} (hname : Path.IsName name) (hcwd : w'.cwd = w.cwd)
    (hways : w.tree.WaysIn w'.tree) {loc : Location}
    (h : w.tree.seat w.cwd (p.join ⟨name⟩) = .ok loc) :
    w'.tree.seat w'.cwd (p.join ⟨name⟩) = .ok loc := by
  obtain ⟨hlong, hnul, hsize, links, dir, hreach, hdir, rfl⟩ := (seat_join hname).1 h
  exact (seat_join hname).2
    ⟨hlong, hnul, hsize, links, dir, hreach.mono hcwd hways, hways.isDirectory hdir, rfl⟩

/-- Seen from a directory of the tree, a name is looked up in that directory. -/
theorem resolve_inside {t : FileTree} {dir : Location} (hname : Path.IsName name)
    (hsize : name.size ≤ maxName) (hnul : (Path.mk name).holdsNul = false)
    (hdir : t.isDirectory dir = true) :
    (World.inside t dir).resolve ⟨name⟩ = t.walk .reading maxLinks dir [.enter name] := by
  -- no name is as long as a path may be
  have hshort : (Path.mk name).isTooLong = false := by
    have hmax : maxName = 255 := rfl
    unfold Path.isTooLong
    simp only [decide_eq_false_iff_not]
    omega
  unfold resolve FileTree.resolve FileTree.resolveFor FileTree.lookUp
  rw [hshort, hnul, if_neg (by simp), if_neg (by simp), if_neg hname.1, Path.isAbsolute_name hname,
    Path.steps_name hname, walkFrom_eq]
  have hup : Standpoint.comeUp ((inside t dir).startOf false).lost [.enter name] =
      .ok (some [.enter name]) := Standpoint.comeUp_zero _
  rw [hup]
  exact if_pos hdir

/-- What a path leads to is a directory exactly if the path reaches it. -/
theorem resolve_eq_directory_iff {dir : Location} :
    w.resolve p = .ok (.present dir .directory) ↔
      p.text ≠ .empty ∧ p.isTooLong = false ∧ (∃ links, w.Reaches p links dir) ∧
        w.tree.isDirectory dir = true := by
  unfold resolve FileTree.resolve FileTree.resolveFor FileTree.lookUp Reaches
  -- the refusals of the path are told apart; behind them the walk decides
  cases p.holdsNul <;> cases p.isTooLong <;> by_cases hp : p.text = .empty <;>
    simp [hp, walkFrom_eq_directory_iff]

end World

end TypeLeak
