import TypeLeak.FileTree.World
import TypeLeak.Manifest
import TypeLeak.CompilerConfig
import TypeLeak.CompilerCommand
import TypeLeak.Toolchain

/-! # Failures of a check

Each way in which a check can fail to reach an answer, with the messages that explain it, the
outermost first.
-/

namespace TypeLeak

/-- Why a check ended without an answer. -/
inductive Failure where
  | notInitialized
  | noCurrentDirectory (cause : OsError)
  | unreadable (path : Path) (cause : World.ReadError)
  | schema (error : ShapeError)
  | emptyCommand
  | nothingToTrace
  | unwritable (path : Path) (cause : OsError)
  | notLaunched (command : String) (cause : OsError)
  | compilerFailed (command : String) (status : ExitStatus) (output : String)
  | noSelectionLeft
  | noInputLeft
  | noTerminal
  deriving Repr, DecidableEq

namespace Failure

/-- The messages from the outermost to the root cause. -/
def chain : Failure → List String
  | notInitialized => ["Config not initialized - call initialize() first"]
  | noCurrentDirectory cause => [cause.message]
  | unreadable path cause => ["Failed to read " ++ path.lossy, cause.message]
  | schema error => [error.message]
  | emptyCommand => ["Compiler command is empty"]
  | nothingToTrace => ["Cannot trace an empty list of files"]
  | unwritable path cause => ["Failed to write " ++ path.lossy, cause.message]
  | notLaunched command cause => ["Failed to run `" ++ command ++ "`", cause.message]
  | compilerFailed command status output =>
    ["`" ++ command ++ "` failed with exit code " ++ status.describe ++ "\n" ++ output]
  | noSelectionLeft => ["no selection left"]
  | noInputLeft => ["no input left"]
  | noTerminal => ["IO error: not a terminal", "not a terminal"]

/-- The messages in one line. -/
def message (f : Failure) : String := ": ".intercalate f.chain

/-- The operating system, or the terminal, refused something. -/
def isSystem : Failure → Bool
  | noCurrentDirectory _ | unreadable .. | unwritable .. | notLaunched .. | noTerminal => true
  | _ => false

end Failure

/-- The manifest of the project at `root`. -/
def World.manifest (w : World) (root : Path) : Except Failure Manifest :=
  let path := root.join ⟨Layout.manifestFile⟩
  match w.readText path with
  | .error cause => .error (.unreadable path cause)
  | .ok content => (Manifest.parse content).mapError .schema

/-- The command that a line writes. -/
def CompilerCommand.ofLine (line : String) : Except Failure CompilerCommand :=
  match ofLine? line with
  | none => .error .emptyCommand
  | some c => .ok c

/-- The configuration for a list of files that is not empty. -/
def CompilerConfig.forFiles (extendsPath : String) (files : List String) :
    Except Failure CompilerConfig :=
  if files = [] then .error .nothingToTrace else .ok ⟨extendsPath, files⟩

end TypeLeak
