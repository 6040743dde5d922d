import TypeLeak.FileTree.World

/-! # Making a snapshot

A snapshot of a file system is built entry by entry.  Missing parent directories are made on the
way; an entry whose parents lead through links goes where the links lead.
-/

namespace TypeLeak.World

/-- The world with a directory at a path, if its name is free. -/
private def makeDirectory (w : World) (p : Path) : World :=
  match w.resolve p with
  | .ok (.vacant loc) => { w with tree := w.tree.insert loc .directory }
  | _ => w

/-- The world with the directory that a path names and all those above it. -/
def makeDirectories (w : World) (p : Path) : World :=
  (Path.ofComponents p.components).ancestors.reverse.foldl makeDirectory w

/-- The world with an entry at a path.  A file replaces the content of a file that is there, which
    stays executable if it was. -/
def plant (w : World) (p : Path) (e : Entry) : World :=
  let w := (p.parent.map w.makeDirectories).getD w
  -- what is in the way of the entry stays, and the entry is left out
  match e with
  | .directory => w.makeDirectories p
  | .file bytes executable =>
    match w.resolve p with
    | .ok (.present loc (.file _ before)) =>
      { w with tree := w.tree.insert loc (.file bytes (executable || before)) }
    | .ok (.vacant loc) => { w with tree := w.tree.insert loc e }
    | _ => w
  | .link _ =>
    match w.tree.seat w.cwd p with
    | .ok loc => if w.tree.get? loc = none then { w with tree := w.tree.insert loc e } else w
    | .error _ => w

/-- The world without what a path names, and whether there was anything. -/
def uproot (w : World) (p : Path) : World × Bool :=
  match w.tree.seat w.cwd p with
  | .error _ => (w, false)
  | .ok loc =>
    if (w.tree.get? loc).isSome then (⟨w.tree.prune loc, w.cwd.without loc⟩, true) else (w, false)

end TypeLeak.World
