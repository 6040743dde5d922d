import TypeLeak.Check
import TypeLeak.CommandLine.Option

/-! # Reading the command line

Arguments are read from left to right, and the first problem ends the reading.  The values of an
option that are arguments of their own are collected while they come; they are settled, and may
only then turn out to be wrong, when the next option begins or the arguments end.  A value behind
an equals sign is settled at once.

When an unknown argument ends the reading, collected values are settled first, and what is wrong
with them is not reported any more.
-/

namespace TypeLeak.CommandLine

/-- An argument by its spelling. -/
inductive Argument where
  /-- two dashes: only plain arguments follow -/
  | escape
  | long (name : String) (value : Option String)
  | short (letter : Char)
  | plain (text : String)
  deriving Repr, DecidableEq

/-- The name and the value of a long option, after its dashes. -/
def splitValue (cs : List Char) : String × Option String :=
  match cs.dropWhile (· != '=') with
  | [] => (String.ofList cs, none)
  | _ :: value => (String.ofList (cs.takeWhile (· != '=')), some (String.ofList value))

/-- What an argument is, by how it begins. -/
def Argument.ofText (text : String) : Argument :=
  match text.toList with
  | ['-', '-'] => .escape
  | '-' :: '-' :: cs =>
    let (name, value) := splitValue cs
    .long name value
  | '-' :: letter :: _ => .short letter
  | _ => .plain text

/-- The options given so far with their values, in the order of their first use. -/
abbrev Given := List (Flag × List String)

namespace Given

/-- The options given. -/
def flags (g : Given) : List Flag := g.map Prod.fst

/-- The values of an option. -/
def values (g : Given) (f : Flag) : List String := (g.lookup f).getD []

/-- More values for an option. -/
def add (g : Given) (f : Flag) (values : List String) : Given :=
  if g.flags.contains f then
    g.map fun e => if e.1 = f then (e.1, e.2 ++ values) else e
  else g ++ [(f, values)]

/-- The values without those of an option. -/
def remove (g : Given) (f : Flag) : Given := g.filter fun e => e.1 != f

/-- Settle the values of an option.  What is given changes even when something is wrong. -/
def settle (g : Given) (f : Flag) (values : List String) : Given × Option Stop :=
  if values = [] then (g, some (.missingValue f))
  else if f = .files then (g.add f (values.flatMap (Text.splitAt ',')), none)
  else if g.flags.contains f then (g.remove f, some (.repeated f))
  else if f = .root ∧ values = [""] then (g.add f [], some (.missingValue f))
  else (g.add f values, none)

end Given

/-- How far the reading has come. -/
structure Reader where
  given : Given
  /-- the option whose values are being collected, and those it has -/
  open? : Option (Flag × List String)
  /-- two dashes have been read -/
  plainOnly : Bool
  deriving Repr

namespace Reader

/-- Nothing is read yet. -/
def start : Reader := ⟨[], none, false⟩

/-- What is given once the collected values are settled. -/
def settled (r : Reader) : Given × Option Stop :=
  match r.open? with
  | none => (r.given, none)
  | some (f, values) => r.given.settle f values

/-- What is given, if nothing is wrong with the collected values. -/
def settle (r : Reader) : Except Stop Given :=
  match r.settled with
  | (_, some stop) => .error stop
  | (given, none) => .ok given

/-- The option that takes the next plain argument as a value. -/
def taker (r : Reader) : Option (Flag × List String) :=
  match r.open? with
  | some (.files, values) => some (.files, values)
  | some (f, []) => some (f, [])
  | _ => none

/-- The first use of an option after others. -/
def shownWith (flags : List Flag) (f : Flag) : List Flag :=
  if flags.contains f then flags else flags ++ [f]

/-- An unknown long option ends the reading. -/
def unknownLong (r : Reader) (name : String) : Stop :=
  let similar := Similarity.mostSimilar Flag.name name Flag.all
  let flags := r.settled.1.flags
  .unknownArgument ("--" ++ name) similar ((similar.map (shownWith flags)).getD flags)

/-- An option without a value of its own, or with the values that follow. -/
def openFlag (r : Reader) (f : Flag) : Except Stop Reader := do
  let given ← r.settle
  -- help and the version stop the reading where they stand
  match f with
  | .help => .error .help
  | .version => .error .version
  | f => .ok ⟨given, some (f, []), false⟩

/-- An option with a value behind an equals sign. -/
def assignFlag (r : Reader) (f : Flag) (value : String) : Except Stop Reader :=
  if f.takesValue then do
    let given ← r.settle
    match given.settle f [value] with
    | (_, some stop) => .error stop
    | (given, none) => .ok ⟨given, none, false⟩
  else .error (.unexpectedValue f value (r.given ≠ []))

/-- Read one argument. -/
def read (r : Reader) (text : String) : Except Stop Reader :=
  if r.plainOnly then .error (.unknownArgument text none [])
  else
    match Argument.ofText text with
    | .escape => .ok { r with plainOnly := true }
    | .long name value =>
      match Flag.ofName? name, value with
      | none, _ => .error (r.unknownLong name)
      | some f, some value => r.assignFlag f value
      | some f, none => r.openFlag f
    | .short letter =>
      match Flag.ofLetter? letter with
      | none => .error (.unknownArgument ("-" ++ letter.toString) none [])
      | some f => r.openFlag f
    | .plain text =>
      -- only the option that is open can take it, since there are no arguments by position
      match r.taker with
      | some (f, values) => .ok { r with open? := some (f, values ++ [text]) }
      | none => .error (.unknownArgument text none [])

/-- Read all arguments. -/
def readAll : Reader → List String → Except Stop Reader
  | r, [] => .ok r
  | r, text :: texts => do
    let next ← r.read text
    readAll next texts

end Reader

/-- The options that a check is started with. -/
def Given.options (g : Given) : Options where
  files := g.values .files
  root := (g.values .root).head?.map fun text => ⟨.ofString text⟩
  compiler := ((g.values .tsc).head?).getD CompilerCommand.standardLine

/-- What arguments ask for. -/
def parse (args : List String) : Except Stop Options := do
  let last ← Reader.start.readAll args
  let given ← last.settle
  .ok given.options

end TypeLeak.CommandLine
