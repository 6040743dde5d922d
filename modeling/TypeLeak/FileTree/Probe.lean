import TypeLeak.FileTree.Resolve

/-! # Probing the names on a walk

The canonical path of an entry is found name by name.  Each name that the walk comes to is probed by
the canonical path of its location, and a directory that the walk goes up from or ends in with more
than its name is probed once more, with a slash behind that path.  So a walk can be too deep to be
followed in this way although the path that it follows is short.
-/

namespace TypeLeak.FileTree

/-- What is behind a name lets it be nothing but a directory: it ends there, though not with the name
    itself, or goes up again. -/
def needsDirectory (rest : List Step) : Bool :=
  match rest.dropWhile fun step => step == .slash || step == .stay with
  | [] => !rest.isEmpty
  | step :: _ => step == .up

/-- The paths probed on a walk from a directory, leaving links to `follow`. -/
def probeSteps (t : FileTree) (follow : Location → List Step → List Path) :
    Location → List Step → List Path
  | _, [] => []
  | dir, .slash :: rest => probeSteps t follow dir rest
  | dir, .stay :: rest => probeSteps t follow dir rest
  | dir, .up :: rest => probeSteps t follow dir.dropLast rest
  | dir, .enter name :: rest =>
    let loc := dir ++ [name]
    match t.get? loc with
    | some .directory =>
      loc.path :: (if needsDirectory rest then [loc.path.append .slash] else []) ++
        probeSteps t follow loc rest
    | some (.link target) =>
      loc.path :: follow (if target.isAbsolute then [] else dir) (target.steps ++ rest)
    | _ => [loc.path]

/-- The paths probed on a walk from a directory through at most `links` links. -/
def probes (t : FileTree) : (links : Nat) → Location → List Step → List Path
  | 0 => t.probeSteps fun _ _ => []
  | links + 1 => t.probeSteps (t.probes links)

end TypeLeak.FileTree
