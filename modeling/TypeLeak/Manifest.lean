import TypeLeak.Layout
import TypeLeak.Shape

/-! # Package manifests

The part of a manifest that a check relies on: two entry points and three classes of
dependencies.  Each of them may be missing or null.  A class maps package names to version ranges,
which are never looked into.

* `isDevOnly_iff`   which packages only the development dependencies declare
-/

namespace TypeLeak

/-- Package names with their version ranges. -/
abbrev DependencyClass := List (String × String)

/-- The fields of a manifest. -/
structure Manifest where
  mainEntry : Option String
  moduleEntry : Option String
  runtime : Option DependencyClass
  dev : Option DependencyClass
  peer : Option DependencyClass
  deriving Repr, DecidableEq

namespace Manifest

/-- The entry points in order, each once. -/
def entryPoints (m : Manifest) : List String :=
  match m.mainEntry, m.moduleEntry with
  | none, none => []
  | some main, none => [main]
  | none, some entry => [entry]
  | some main, some entry => if main = entry then [main] else [main, entry]

/-- A class of dependencies, if there is one, has a package. -/
def declares (c : Option DependencyClass) (name : String) : Bool :=
  match c with
  | none => false
  | some deps => deps.any fun d => d.1 == name

/-- Packages that use this one get the other one too. -/
def declaresRuntime (m : Manifest) (name : String) : Bool := declares m.runtime name

/-- The other package is used to develop this one. -/
def declaresDev (m : Manifest) (name : String) : Bool := declares m.dev name

/-- Packages that use this one have to bring the other one. -/
def declaresPeer (m : Manifest) (name : String) : Bool := declares m.peer name

/-- Only the development dependencies declare a package, and it is not the compiler's. -/
def isDevOnly (m : Manifest) (name : String) : Bool :=
  name != Layout.compilerPackage && m.declaresDev name && !m.declaresRuntime name && !m.declaresPeer name

/-- The manifest that an object holds.  Its fields are looked at in the order of their keys. -/
def decode (v : Json.Value) : Except Violation Manifest := do
  let runtime ← Shape.optionalField Shape.decodeTextMap "dependencies" v
  let dev ← Shape.optionalField Shape.decodeTextMap "devDependencies" v
  let main ← Shape.optionalField Shape.decodeText "main" v
  let entry ← Shape.optionalField Shape.decodeText "module" v
  let peer ← Shape.optionalField Shape.decodeTextMap "peerDependencies" v
  .ok ⟨main, entry, runtime, dev, peer⟩

/-- The manifest that a text writes. -/
def parse (content : String) : Except ShapeError Manifest :=
  Shape.parse decode Layout.manifestFile content

theorem declares_iff {c : Option DependencyClass} {name : String} :
    declares c name = true ↔ ∃ deps, c = some deps ∧ name ∈ deps.map Prod.fst := by
  cases c <;> simp [declares]

/-- The packages that only the development dependencies declare. -/
theorem isDevOnly_iff {m : Manifest} {name : String} :
    m.isDevOnly name = true ↔
      name ≠ Layout.compilerPackage ∧ m.declaresDev name = true ∧ m.declaresRuntime name = false ∧
        m.declaresPeer name = false := by
  simp [isDevOnly, and_assoc]

end Manifest

end TypeLeak
