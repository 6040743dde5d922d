import TypeLeak.Layout
import TypeLeak.Shape
import TypeLeak.FileTree.World

/-! # From compiled files back to their sources

A compiled entry point is traced to its TypeScript sources through the source map beside it.  The
map lists sources relative to the entry point's directory; those that have a TypeScript extension
and exist are the result, in the order of the map and as often as they are listed.

* `files_ofFiles`   the files of a trace are the sources it was made from
-/

namespace TypeLeak

/-- The part of a source map that is used. -/
structure SourceMap where
  sources : List String
  deriving Repr, DecidableEq

namespace SourceMap

/-- The source map that an object holds. -/
def decode (v : Json.Value) : Except Violation SourceMap := do
  let sources ← Shape.field Shape.decodeTexts "sources" v
  let sources ← Shape.require "sources" sources
  .ok ⟨sources⟩

/-- The path of the source map of a compiled file. -/
def pathOf (entry : Path) : Path := entry.append Layout.mapSuffix

end SourceMap

/-- What came of tracing an entry point. -/
inductive EntryTrace where
  | found (files : List Path)
  | entryMissing
  | mapMissing
  | invalidMap (reason : String)
  | noSources
  deriving Repr, DecidableEq

namespace EntryTrace

/-- The sources found. -/
def files : EntryTrace → List Path
  | found files => files
  | _ => []

/-- The trace of a map whose existing sources are `files`. -/
def ofFiles (files : List Path) : EntryTrace := if files = [] then noSources else found files

/-- The files of a trace are the sources it was made from. -/
theorem files_ofFiles (files : List Path) : (ofFiles files).files = files := by
  unfold ofFiles
  split <;> simp_all [EntryTrace.files]

end EntryTrace

namespace World

/-- The existing TypeScript sources among those that a map in `dir` lists. -/
def existingSources (w : World) (dir : Path) (sources : List String) : List Path :=
  ((sources.filter Layout.isSource).map fun source =>
    (dir.join ⟨.ofString source⟩).clean).filter w.isFile

/-- Trace an entry point of the project at `root` to its sources. -/
def traceEntry (w : World) (root : Path) (entry : String) : EntryTrace :=
  let entryPath := (root.join ⟨.ofString entry⟩).clean
  let mapPath := SourceMap.pathOf entryPath
  if !w.isFile entryPath then .entryMissing
  else if !w.isFile mapPath then .mapMissing
  else
    match w.readText mapPath with
    | .error cause => .invalidMap cause.message
    | .ok content =>
      match Shape.parse SourceMap.decode mapPath.lossy content with
      | .error e => .invalidMap e.summary
      -- sources are relative to the directory of the map, which is that of the entry point
      | .ok map => .ofFiles (w.existingSources (entryPath.parent.getD root) map.sources)

end World

end TypeLeak
