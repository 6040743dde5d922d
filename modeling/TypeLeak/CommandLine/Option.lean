import TypeLeak.CommandLine.Similarity
import TypeLeak.Text.ControlSequence

/-! # The options of the command line

The options with their names and how they are shown, what can be wrong with a command line, and
the texts for that, for the help and for the version.
-/

namespace TypeLeak.CommandLine

/-- The options. -/
inductive Flag where
  | files
  | root
  | tsc
  | help
  | version
  deriving Repr, DecidableEq

namespace Flag

/-- Every option, in the order of the help text. -/
def all : List Flag := [files, root, tsc, help, version]

/-- The name behind the two dashes. -/
def name : Flag → String
  | files => "files"
  | root => "root"
  | tsc => "tsc"
  | help => "help"
  | version => "version"

/-- The option as a usage line shows it. -/
def usage : Flag → String
  | files => "--files <FILES>..."
  | root => "--root <ROOT>"
  | tsc => "--tsc <TSC>"
  | help => "--help"
  | version => "--version"

/-- The option needs a value. -/
def takesValue : Flag → Bool
  | files | root | tsc => true
  | help | version => false

/-- A choice among the options that need a value, as a usage line shows it. -/
def choice : String := "<" ++ "|".intercalate ((all.filter takesValue).map usage) ++ ">"

/-- The option with a name. -/
def ofName? (text : String) : Option Flag := all.find? fun f => f.name == text

/-- The option with a letter. -/
def ofLetter? (letter : Char) : Option Flag :=
  if letter = 'h' then some help else if letter = 'V' then some version else none

/-- Each option has its own name. -/
theorem ofName?_name (f : Flag) : ofName? f.name = some f := by cases f <;> decide

end Flag

/-- Why no check follows from a command line. -/
inductive Stop where
  /-- an argument that is no option's, the option most similar to it, and the options to show -/
  | unknownArgument (argument : String) (similar : Option Flag) (shown : List Flag)
  | missingValue (flag : Flag)
  | repeated (flag : Flag)
  /-- a value for an option that needs none, and whether options with a value came before it -/
  | unexpectedValue (flag : Flag) (value : String) (afterOthers : Bool)
  | help
  | version
  deriving Repr, DecidableEq

/-- The name of the program. -/
def programName : String := "transitype"

/-- What is printed for the version. -/
def versionText : String := programName ++ " 0.1.0\n"

/-- What is printed for help. -/
def helpText : String :=
  "Find devDependencies that leak into a library's exported types\n\nUsage: " ++ programName ++
    " [OPTIONS]\n\nOptions:\n" ++
    "      --files <FILES>...  " ++
      "List of TypeScript files to trace (skips discovery and prompts)\n" ++
    "      --root <ROOT>       " ++
      "Root directory of the project (defaults to the current directory)\n" ++
    "      --tsc <TSC>         " ++
      "Command used to run the TypeScript compiler [default: \"npx tsc\"]\n" ++
    "  -h, --help              Print help\n" ++
    "  -V, --version           Print version\n"

/-- The usage line that shows `shown`. -/
def usageLine (shown : String) : String := "\n\nUsage: " ++ programName ++ " " ++ shown

/-- What a usage line shows for some options, or for any. -/
def usageOf (flags : List Flag) : String :=
  if flags = [] then "[OPTIONS]" else " ".intercalate (flags.map Flag.usage)

namespace Stop

/-- Where to find help. -/
def advice : String := "\n\nFor more information, try '--help'.\n"

/-- The option to suggest. -/
def tip : Option Flag → String
  | none => ""
  | some f => "\n\n  tip: a similar argument exists: '--" ++ f.name ++ "'"

/-- The text that is printed.  What was typed in is shown without its control sequences. -/
def text (filter : Text.ControlSequence.Filter) : Stop → String
  | unknownArgument argument similar shown =>
    "error: unexpected argument '" ++ Text.ControlSequence.strip filter argument ++ "' found" ++
      tip similar ++ usageLine (usageOf shown) ++ advice
  | missingValue flag =>
    "error: a value is required for '" ++ flag.usage ++ "' but none was supplied" ++ advice
  | repeated flag =>
    "error: the argument '" ++ flag.usage ++ "' cannot be used multiple times" ++
      usageLine (usageOf []) ++ advice
  | unexpectedValue flag value afterOthers =>
    "error: unexpected value '" ++ Text.ControlSequence.strip filter value ++ "' for '" ++
      flag.usage ++ "' found; no more were expected" ++
      usageLine (flag.usage ++ if afterOthers then " " ++ Flag.choice else "") ++ advice
  | help => helpText
  | version => versionText

/-- The message as a text. -/
def message (s : Stop) : String := s.text .forText

/-- What is written to the standard error or output. -/
def written (s : Stop) : String := s.text .forStream

/-- Asking for help or the version is no mistake. -/
def isMistake : Stop → Bool
  | help | version => false
  | _ => true

/-- The exit code of the program. -/
def exitCode (s : Stop) : Nat := if s.isMistake then 2 else 0

end Stop

end TypeLeak.CommandLine
