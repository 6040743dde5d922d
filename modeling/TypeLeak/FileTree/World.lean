import TypeLeak.FileTree.Probe
import TypeLeak.Text.Utf8

/-! # The file system as a program sees it

A world is a file tree together with the current directory, from which relative paths start.
Reading and writing go through links; unlinking acts on the link itself.
-/

namespace TypeLeak

/-- A file tree seen from a current directory. -/
structure World where
  tree : FileTree
  cwd : Standpoint
  deriving Repr

namespace World

/-- A file tree seen from one of its directories. -/
def inside (tree : FileTree) (dir : Location) : World := ⟨tree, .inside dir⟩

/-- Where a path leads. -/
def resolve (w : World) (p : Path) : Except OsError Target := w.tree.resolve w.cwd p

/-- A path leads to something. -/
def exists? (w : World) (p : Path) : Bool :=
  match w.resolve p with
  | .ok (.present ..) => true
  -- a directory that is being stood in can still be asked about
  | .ok .removed => true
  | _ => false

/-- A path leads to a regular file. -/
def isFile (w : World) (p : Path) : Bool :=
  match w.resolve p with
  | .ok (.present _ (.file ..)) => true
  | _ => false

/-- The directory that a path leads to. -/
def directory (w : World) (p : Path) : Except OsError Location :=
  match w.resolve p with
  | .ok (.present loc .directory) => .ok loc
  | .ok (.present ..) => .error .notDirectory
  | .ok _ => .error .notFound
  | .error e => .error e

/-- The bytes of the file that a path leads to. -/
def readBytes (w : World) (p : Path) : Except OsError (List UInt8) :=
  match w.resolve p with
  | .ok (.present loc (.file bytes _)) =>
    -- a locked file is found but not opened
    if w.tree.isReadable loc then .ok bytes else .error .denied
  | .ok (.vacant _) => .error .notFound
  | .ok _ => .error .isDirectory
  | .error e => .error e

/-- Why a text file cannot be read. -/
inductive ReadError where
  | os (cause : OsError)
  | notUtf8
  deriving Repr, DecidableEq

/-- The message of the operating system, or that of the decoder. -/
def ReadError.message : ReadError → String
  | .os cause => cause.message
  | .notUtf8 => "stream did not contain valid UTF-8"

/-- The text of the file that a path leads to. -/
def readText (w : World) (p : Path) : Except ReadError String :=
  match w.readBytes p with
  | .error cause => .error (.os cause)
  | .ok bytes =>
    match Text.Utf8.decode? bytes with
    | some text => .ok text
    | none => .error .notUtf8

/-- The world with `text` in the file that a path leads to, which is made if its name is free. -/
def writeText (w : World) (p : Path) (text : String) : Except OsError World :=
  match w.tree.resolveFor .writing w.cwd p with
  | .ok (.present loc (.file _ executable)) =>
    .ok { w with tree := w.tree.insert loc (.file (Text.Utf8.encode text) executable) }
  -- a new file is not executable, and an old one stays what it was
  | .ok (.vacant loc) =>
    .ok { w with tree := w.tree.insert loc (.file (Text.Utf8.encode text) false) }
  | .ok _ => .error .isDirectory
  | .error e => .error e

/-- The world without the file or link that a path names. -/
def unlink (w : World) (p : Path) : Except OsError World :=
  match w.tree.seat w.cwd p with
  | .error e => .error e
  | .ok loc =>
    match w.tree.get? loc with
    | none => .error .notFound
    -- a directory is not unlinked, and a link is not followed
    | some .directory => .error .isDirectory
    | some _ => .ok { w with tree := w.tree.erase loc }

/-- The paths that are probed on the way along a path. -/
def probed (w : World) (p : Path) : List Path :=
  w.tree.probes FileTree.maxLinks (if p.isAbsolute then [] else w.cwd.dir) p.steps

/-- The absolute, link-free path of what a path leads to.  It is found name by name, so the path
    can be of any length but must not lead too deep, and from the path of the current directory, so
    that must not have been removed. -/
def canonical (w : World) (p : Path) : Except OsError Path :=
  match w.tree.lookUp .reading w.cwd p with
  | .ok (.present loc _) =>
    -- without a path of the current directory there is nothing to begin with
    if !p.isAbsolute && w.cwd.lost ≠ 0 then .error .notFound
    else if (w.probed p).any Path.isTooLong then .error .nameTooLong
    else .ok loc.path
  | .ok _ => .error .notFound
  | .error e => .error e

/-- The path of the current directory, unless it has been removed. -/
def currentDirectory (w : World) : Except OsError Path :=
  if w.cwd.lost = 0 && w.tree.isDirectory w.cwd.dir then .ok w.cwd.dir.path else .error .notFound

end World

end TypeLeak
