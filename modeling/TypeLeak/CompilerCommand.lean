import TypeLeak.Layout
import TypeLeak.Text.Blank

/-! # Compiler commands

How the compiler is launched: a program and the arguments that come before those of a trace.  A
command line is cut at its blanks; there are no quotes.
-/

namespace TypeLeak

/-- A program and its leading arguments. -/
structure CompilerCommand where
  program : String
  leadingArgs : List String
  deriving Repr, DecidableEq

namespace CompilerCommand

/-- The compiler that the package runner finds. -/
def standard : CompilerCommand := ⟨"npx", ["tsc"]⟩

/-- The command line of the standard command. -/
def standardLine : String := "npx tsc"

/-- The command that a line writes, unless it has only blanks. -/
def ofLine? (line : String) : Option CompilerCommand :=
  match Text.words line with
  | [] => none
  | program :: args => some ⟨program, args⟩

/-- The command as it is shown. -/
def display (c : CompilerCommand) : String := " ".intercalate (c.program :: c.leadingArgs)

/-- The arguments that make the compiler list what it loads and write nothing. -/
def traceArgs (c : CompilerCommand) : List String :=
  c.leadingArgs ++ ["--listFiles", "--noEmit", "--project", Layout.checkConfigFile]

end CompilerCommand

end TypeLeak
