import TypeLeak.EntryTrace
import TypeLeak.Text.Quoted
import TypeLeak.Text.Styled

/-! # What the operator reads

A report is a sequence of outputs: a text to write, or the request that everything written so far
is shown.  Colour is no part of a report; it is chosen when the report is rendered.

* `written_append`   what two reports write is written one after the other
-/

namespace TypeLeak

open Text (Span Style)

/-- One step of a report. -/
inductive Output where
  | text (spans : List Span)
  | flush
  deriving Repr, DecidableEq

namespace Report

/-- What a report writes. -/
def written (colour : Bool) (report : List Output) : String :=
  Text.render colour <| report.flatMap fun
    | .text spans => spans
    | .flush => []

/-- How often a report asks to be shown. -/
def flushes (report : List Output) : Nat := report.count .flush

theorem written_append (colour : Bool) (xs ys : List Output) :
    written colour (xs ++ ys) = written colour xs ++ written colour ys := by
  simp [written, Text.render_append]

@[simp] theorem written_flush (colour : Bool) : written colour [.flush] = "" := by
  simp [written, Text.render]

/-- A text and the end of its line. -/
def line (spans : List Span) : Output := .text (spans ++ [.plain "\n"])

/-- A plain line. -/
def info (message : String) : List Output := [line [.plain message]]

/-- A line that begins with a mark. -/
def marked (mark : Span) (message : List Span) : List Output :=
  [line (mark :: .plain " " :: message)]

/-- A line about what went well. -/
def success (message : List Span) : List Output := marked (.styled Style.boldGreen "✓") message

/-- A line about what may be amiss. -/
def warning (message : List Span) : List Output := marked (.styled Style.boldYellow "⚠") message

/-- A line about what went wrong. -/
def failure (message : List Span) : List Output := marked (.styled Style.boldRed "✗") message

/-- The messages of the error that ends a run, from the outermost to the root cause. -/
def fatal (chain : List String) : List Output :=
  failure [.plain (": ".intercalate chain)] ++ [.flush]

/-- What came of tracing an entry point. -/
def entryTrace (entry : String) : EntryTrace → List Output
  | .found files =>
    success [.plain ("Found " ++ toString files.length ++ " TypeScript source(s) for "), name]
  | .entryMissing => failure [.plain "Entry point not found: ", name]
  | .mapMissing =>
    warning [.plain "No source map found for ", name,
      .plain ", cannot trace to TypeScript sources"]
  | .invalidMap reason => failure [.plain "Invalid source map for ", name, .plain (": " ++ reason)]
  | .noSources => warning [.plain "No TypeScript sources found in source map for ", name]
where
  name : Span := .styled Style.blue entry

/-- No entry point could be traced to sources. -/
def noEntrySources : List Output :=
  info "\nCould not trace TypeScript files from package.json entry points." ++
    info "Possible issues:" ++ issue " Entry points do not exist" ++
    issue " No source maps available" ++ issue " Source maps do not reference TypeScript files"
where
  issue (text : String) : List Output := [line [.styled Style.dimmed "-", .plain text]]

/-- The compiler found type errors in the files traced. -/
def typeErrors (files : List String) (output : String) : List Output :=
  info "" ++ failure [.plain "TypeScript compilation failed"] ++
    info ("   Files being traced: " ++ Text.quoteList files) ++
    (if output = "" then [] else info ("   TypeScript error: " ++ output)) ++ [.flush]

/-- The misclassified packages and what to do about them. -/
def advice (names : List String) : List Output :=
  [line [.plain "Consider moving these ", .styled Style.cyan "devDependencies", .plain " into"],
    line [.styled Style.cyan "dependencies", .plain " or ", .styled Style.cyan "peerDependencies",
      .plain "."],
    line [.styled Style.yellow "Not doing so will likely result in bad exported types."]] ++
    info (Text.quoteList names) ++ [.flush]

/-- Nothing was chosen to be traced. -/
def noFiles : List Output := info "" ++ failure [.plain "No files provided to trace"]

/-- The last line of a run: how many milliseconds it took, and how many files were loaded. -/
def finished (elapsed : String) (files : Nat) : List Output :=
  [line [.plain "\n", .styled Style.brightBlue "●", .plain " Finished in ",
    .styled Style.cyan elapsed, .plain "ms on ", .styled Style.cyan (toString files),
    .plain " files."]]

end Report

end TypeLeak
