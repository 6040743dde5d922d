import TypeLeak.Path

/-! # The layout of a TypeScript package

The file names, extensions and conventions that the parts of the check agree on.  Declaration
files end in `.ts` and are TypeScript sources too.
-/

namespace TypeLeak.Layout

/-- The file that makes a directory a package. -/
def manifestFile : String := "package.json"

/-- The project's own compiler configuration. -/
def projectConfigFile : String := "tsconfig.json"

/-- The compiler configuration written for one trace. -/
def checkConfigFile : String := "tsconfig-check.json"

/-- What a compiled file's name is followed by in the name of its source map. -/
def mapSuffix : String := ".map"

/-- The extensions of TypeScript sources. -/
def sourceExtensions : List String := ["ts", "tsx", "mts", "cts"]

/-- The directories that a search for sources leaves out. -/
def skippedDirectories : List String := ["node_modules", "dist"]

/-- The directory that packages are installed in. -/
def packageDirectory : String := "node_modules"

/-- The package that holds the compiler itself. -/
def compilerPackage : String := "typescript"

/-- The compiler's exit code when it found type errors. -/
def typeErrorsExit : Nat := 2

/-- A path names a TypeScript source. -/
def isSource (path : String) : Bool :=
  match (Path.mk path).extension with
  | some extension => sourceExtensions.any fun e => extension = (e : OsText)
  | none => false

end TypeLeak.Layout
