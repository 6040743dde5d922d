import TypeLeak.FileTree.Basic

/-! # Finding what a path names

A path is walked step by step from a directory.  A link met on the way, or at the end, is
replaced by the steps of its target, up to a fixed number of times; a file on the way, or one
followed by a slash, is an error.  Two dots lead to the directory above the one reached, not to
the one written before them, so they behave differently behind a link.

A relative path starts from a standpoint.  A directory can be removed while it is one: nothing is
found in it any more, but it can still be left upwards.

The walk along the steps recurses on the steps, and the replacement of links on the number of
replacements left.

* `get?_of_resolve`   what a path leads to is what the tree holds at that location
-/

namespace TypeLeak

/-- Why the file system refuses a request. -/
inductive OsError where
  | notFound
  | denied
  | notDirectory
  | isDirectory
  | nameTooLong
  | tooManyLinks
  | badExecutable
  | nulInName
  | nulInArgument
  deriving Repr, DecidableEq

namespace OsError

/-- The message of the operating system, or of the check before it is asked. -/
def message : OsError → String
  | notFound => "No such file or directory (os error 2)"
  | denied => "Permission denied (os error 13)"
  | notDirectory => "Not a directory (os error 20)"
  | isDirectory => "Is a directory (os error 21)"
  | nameTooLong => "File name too long (os error 36)"
  | tooManyLinks => "Too many levels of symbolic links (os error 40)"
  | badExecutable => "Exec format error (os error 8)"
  | nulInName => "file name contained an unexpected NUL byte"
  | nulInArgument => "nul byte found in provided data"

end OsError

/-- One step from a directory. -/
inductive Step where
  /-- a slash behind a name, which only a directory allows -/
  | slash
  | stay
  | up
  | enter (name : OsText)
  deriving Repr, DecidableEq

namespace Path

/-- The step that a segment stands for. -/
def stepOf (segment : OsText) : Step :=
  if segment = .empty then .slash
  else if segment = .dot then .stay
  else if segment = .dots then .up
  else .enter segment

/-- The steps of a path after its beginning. -/
def steps (p : Path) : List Step :=
  -- a dot in front is a step of its own, although the segments leave it out
  match p.split with
  | (.here, segments) => .stay :: segments.map stepOf
  | (_, segments) => segments.map stepOf

/-- A path holds a NUL, which no name can. -/
def holdsNul (p : Path) : Bool := p.text.bytes.contains 0

/-- A path has more bytes than the operating system takes. -/
def isTooLong (p : Path) : Bool := 4096 ≤ p.text.size

end Path

/-- Where a path leads. -/
inductive Target where
  /-- an entry that is not a link -/
  | present (loc : Location) (e : Entry)
  /-- a free name in an existing directory -/
  | vacant (loc : Location)
  /-- a directory that has been removed while it was a standpoint -/
  | removed
  deriving Repr, DecidableEq

/-- Where relative paths start. -/
structure Standpoint where
  /-- the nearest directory, from the standpoint upwards, that has not been removed -/
  dir : Location
  /-- how many removed directories there are from below it down to the standpoint -/
  lost : Nat
  deriving Repr, DecidableEq

namespace Standpoint

/-- A directory of the tree as a standpoint. -/
def inside (dir : Location) : Standpoint := ⟨dir, 0⟩

/-- The standpoint once the entry at `loc` and everything below it have been removed. -/
def without (s : Standpoint) (loc : Location) : Standpoint :=
  -- the nearest directory left is the one above `loc`, and all from there down are lost
  if loc.isPrefixOf s.dir then ⟨loc.dropLast, s.lost + (s.dir.length + 1 - loc.length)⟩ else s

/-- The steps left when a walk has come up from `lost` removed directories, or nothing if it ends
    in one of them. -/
def comeUp : (lost : Nat) → List Step → Except OsError (Option (List Step))
  | 0, steps => .ok (some steps)
  -- the walk ends while it is still among removed directories
  | _ + 1, [] => .ok none
  | lost + 1, .up :: rest => comeUp lost rest
  | lost + 1, .slash :: rest => comeUp (lost + 1) rest
  | lost + 1, .stay :: rest => comeUp (lost + 1) rest
  -- a removed directory holds no names
  | _ + 1, .enter _ :: _ => .error .notFound

end Standpoint

/-- What a path is walked for.  A slash behind the last name is an error of its own for a file
    that is going to be written. -/
inductive Purpose where
  | reading
  | writing
  deriving Repr, DecidableEq

/-- Nothing but slashes follows, and at least one. -/
def onlySlashes (rest : List Step) : Bool := !rest.isEmpty && rest.all (· == .slash)

/-- How many bytes a name can have. -/
def maxName : Nat := 255

namespace FileTree

/-- How many links one path may go through. -/
def maxLinks : Nat := 40

/-- Walk from a directory, leaving links to `follow`. -/
def walkSteps (t : FileTree) (purpose : Purpose)
    (follow : Location → List Step → Except OsError Target) :
    Location → List Step → Except OsError Target
  | dir, [] => if t.isDirectory dir then .ok (.present dir .directory) else .error .notFound
  | dir, .slash :: rest => walkSteps t purpose follow dir rest
  | dir, .stay :: rest => walkSteps t purpose follow dir rest
  | dir, .up :: rest => walkSteps t purpose follow dir.dropLast rest
  | dir, .enter name :: rest =>
    let loc := dir ++ [name]
    -- a slash behind the name of a file to be written is refused before the name is looked up
    if purpose = .writing ∧ onlySlashes rest then .error .isDirectory
    else if maxName < name.size then .error .nameTooLong
    else
      match t.get? loc with
      -- only the last name may be free
      | none => if rest = [] then .ok (.vacant loc) else .error .notFound
      | some .directory => walkSteps t purpose follow loc rest
      | some (.file bytes executable) =>
        if rest = [] then .ok (.present loc (.file bytes executable)) else .error .notDirectory
      -- the target is walked from the directory of the link, and what is left comes behind it
      | some (.link target) =>
        follow (if target.isAbsolute then [] else dir) (target.steps ++ rest)

/-- Walk from a directory through at most `links` links. -/
def walk (t : FileTree) (purpose : Purpose) :
    (links : Nat) → Location → List Step → Except OsError Target
  | 0 => t.walkSteps purpose fun _ _ => .error .tooManyLinks
  | links + 1 => t.walkSteps purpose (t.walk purpose links)

/-- Walk from a standpoint, or from the root. -/
def walkFrom (t : FileTree) (purpose : Purpose) (s : Standpoint) (absolute : Bool)
    (steps : List Step) : Except OsError Target :=
  let start := if absolute then Standpoint.inside [] else s
  -- a relative path may have to leave removed directories first
  match Standpoint.comeUp start.lost steps with
  | .error e => .error e
  | .ok none => .ok .removed
  | .ok (some steps) =>
    if t.isDirectory start.dir then t.walk purpose maxLinks start.dir steps else .error .notFound

/-- Where a path leads, however long it is. -/
def lookUp (t : FileTree) (purpose : Purpose) (s : Standpoint) (p : Path) : Except OsError Target :=
  if p.holdsNul then .error .nulInName
  else if p.text = .empty then .error .notFound
  else t.walkFrom purpose s p.isAbsolute p.steps

/-- Where a path leads that is handed to the operating system. -/
def resolveFor (t : FileTree) (purpose : Purpose) (s : Standpoint) (p : Path) :
    Except OsError Target :=
  -- a NUL is noticed before the path is handed over
  if p.isTooLong && !p.holdsNul then .error .nameTooLong
  else t.lookUp purpose s p

/-- Where a path leads. -/
def resolve (t : FileTree) (s : Standpoint) (p : Path) : Except OsError Target :=
  t.resolveFor .reading s p

/-- The location of the entry that a path names, which may be a link or free.  A path that does
    not end with a name is followed. -/
def seat (t : FileTree) (s : Standpoint) (p : Path) : Except OsError Location :=
  match p.steps.getLast? with
  | some (.enter name) =>
    if p.holdsNul then .error .nulInName
    else if p.isTooLong then .error .nameTooLong
    else
      -- the name is not followed: its directory is found, and the entry of that name is meant
      match t.walkFrom .reading s p.isAbsolute p.steps.dropLast with
      | .ok (.present dir .directory) =>
        if maxName < name.size then .error .nameTooLong else .ok (dir ++ [name])
      | .ok (.present ..) => .error .notDirectory
      | .ok _ => .error .notFound
      | .error e => .error e
  | _ =>
    match t.resolve s p with
    | .ok (.present loc _) => .ok loc
    | .ok (.vacant loc) => .ok loc
    | .ok .removed => .error .notFound
    | .error e => .error e

/-- What a walk finds stands in the tree, if what it finds behind links does. -/
private theorem get?_of_walkSteps {t : FileTree} {purpose : Purpose}
    {follow : Location → List Step → Except OsError Target}
    (hfollow : ∀ dir steps loc e, follow dir steps = .ok (.present loc e) → t.get? loc = some e)
    {dir : Location} {steps : List Step} {loc : Location} {e : Entry}
    (h : t.walkSteps purpose follow dir steps = .ok (.present loc e)) : t.get? loc = some e := by
  -- on the steps; a link is left to `hfollow`
  induction steps generalizing dir with
  | nil =>
    simp only [walkSteps] at h
    split at h
    · rename_i hdir
      simp only [Except.ok.injEq, Target.present.injEq] at h
      obtain ⟨rfl, rfl⟩ := h
      simpa [isDirectory] using hdir
    · simp at h
  | cons step rest ih =>
    cases step with
    | slash => exact ih h
    | stay => exact ih h
    | up => exact ih h
    | enter name =>
      simp only [walkSteps] at h
      split at h
      · simp at h
      split at h
      · simp at h
      split at h
      · split at h <;> simp at h
      · exact ih h
      · rename_i hget
        split at h
        · simp only [Except.ok.injEq, Target.present.injEq] at h
          obtain ⟨rfl, rfl⟩ := h
          exact hget
        · simp at h
      · exact hfollow _ _ _ _ h

/-- What a walk reaches is what the tree holds at that location. -/
theorem get?_of_walk {t : FileTree} {purpose : Purpose} {links : Nat} {dir : Location}
    {steps : List Step} {loc : Location} {e : Entry}
    (h : t.walk purpose links dir steps = .ok (.present loc e)) : t.get? loc = some e := by
  -- on the links that may still be followed
  induction links generalizing dir steps loc e with
  | zero => exact get?_of_walkSteps (fun _ _ _ _ h => by simp at h) h
  | succ links ih => exact get?_of_walkSteps (fun _ _ _ _ h => ih h) h

/-- What a walk from a standpoint reaches is what the tree holds at that location. -/
theorem get?_of_walkFrom {t : FileTree} {purpose : Purpose} {s : Standpoint} {absolute : Bool}
    {steps : List Step} {loc : Location} {e : Entry}
    (h : t.walkFrom purpose s absolute steps = .ok (.present loc e)) : t.get? loc = some e := by
  unfold walkFrom at h
  generalize (if absolute then Standpoint.inside [] else s) = start at h
  dsimp only at h
  split at h
  · simp at h
  · simp at h
  · split at h
    · exact get?_of_walk h
    · simp at h

/-- What a path leads to is what the tree holds at that location. -/
theorem get?_of_resolve {t : FileTree} {s : Standpoint} {p : Path} {loc : Location} {e : Entry}
    (h : t.resolve s p = .ok (.present loc e)) : t.get? loc = some e := by
  unfold resolve resolveFor lookUp at h
  split at h
  · simp at h
  · split at h
    · simp at h
    · split at h
      · simp at h
      · exact get?_of_walkFrom h

end FileTree

end TypeLeak
