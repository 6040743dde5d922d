import TypeLeak.CommandLine.Parser
import TypeLeak.OutputBuffer

/-! # A run of the program

What the program prints and how it exits: at once for a command line from which no check follows,
and else with the report of the check, which is written through a buffer.  A failed check ends
with the failure's line, and the program exits at once with code 1; one that reached its answer
through the compiler ends with the time it took.
-/

namespace TypeLeak.CommandLine

/-- What is left of a run of the program. -/
structure ProgramRun where
  exitCode : Nat
  stdout : String
  stderr : String
  world : World
  events : List Event

/-- How a run of a check ends: what closes its report, the exit code, and how the program leaves. -/
structure Ending where
  closing : List Output
  exitCode : Nat
  leaving : Leaving
  deriving Repr, DecidableEq

/-- The end of a check that took so many milliseconds. -/
def ending (elapsed : String) : Except Failure Verdict → Ending
  | .error failure => ⟨Report.fatal failure.chain, 1, .exits⟩
  | .ok (.checked _ listed) => ⟨Report.finished elapsed listed ++ [.flush], 0, .returns⟩
  | .ok _ => ⟨[.flush], 0, .returns⟩

/-- The run of a check: the report, what closes it, and the exit code. -/
def checkRun (w : World) (toolchain : Toolchain) (operator : Operator) (colour : Bool)
    (elapsed : String) (o : Options) : ProgramRun :=
  let run := w.check toolchain operator o
  let ending := ending elapsed run.result
  let buffer := OutputBuffer.empty.puts colour (Transcript.report run.events ++ ending.closing)
  ⟨ending.exitCode, buffer.leave ending.leaving, "", run.world, run.events⟩

/-- The run of a command line that asks for no check. -/
def stopRun (w : World) (s : Stop) : ProgramRun :=
  if s.isMistake then ⟨s.exitCode, "", s.written, w, []⟩ else ⟨s.exitCode, s.written, "", w, []⟩

/-- Run the program with arguments, where an operator answers its questions.  `elapsed` is the number
of milliseconds to report. -/
def runWith (operator : Operator) (w : World) (toolchain : Toolchain) (colour : Bool)
    (elapsed : String) (args : List String) : ProgramRun :=
  match parse args with
  | .error s => stopRun w s
  | .ok o => checkRun w toolchain operator colour elapsed o

/-- Run the program with arguments, where there is no terminal. -/
def runProgram (w : World) (toolchain : Toolchain) (colour : Bool) (elapsed : String)
    (args : List String) : ProgramRun :=
  runWith .absent w toolchain colour elapsed args

end TypeLeak.CommandLine
