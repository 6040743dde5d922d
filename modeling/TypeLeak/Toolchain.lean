import TypeLeak.FileTree.Resolve

/-! # Running other programs

A toolchain says what happens when a program is launched in a directory of a file tree: it cannot
be started, or it finishes with what it printed, how it ended, and the file tree it leaves behind.
-/

namespace TypeLeak

/-- What is launched and where. -/
structure Invocation where
  program : String
  args : List String
  dir : Location
  deriving Repr, DecidableEq

/-- How a program ended. -/
inductive ExitStatus where
  | code (value : Nat)
  | signal
  deriving Repr, DecidableEq

namespace ExitStatus

/-- The exit code, if there is one. -/
def describe : ExitStatus → String
  | code value => "Some(" ++ toString value ++ ")"
  | signal => "None"

end ExitStatus

/-- What a program that ended has printed and left behind. -/
structure Finished where
  stdout : List UInt8
  stderr : List UInt8
  status : ExitStatus
  tree : FileTree
  deriving Repr

/-- What happens when a program is launched in a file tree. -/
def Toolchain : Type := Invocation → FileTree → Except OsError Finished

end TypeLeak
