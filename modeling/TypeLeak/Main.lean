import TypeLeak.CommandLine.Program
import TypeLeak.Recording

/-! # The program

Help, the version and mistakes on the command line are answered at once.  A check is replayed on
a recorded project that is read from the standard input.
-/

namespace TypeLeak

/-- Print what a run leaves and give its exit code. -/
def printRun (run : CommandLine.ProgramRun) : IO UInt32 := do
  (← IO.getStdout).putStr run.stdout
  (← IO.getStderr).putStr run.stderr
  return run.exitCode.toUInt32

/-- Replay a check on a recorded project. -/
def replay (args : List String) (recording : Json.Value) (elapsed : Nat) : CommandLine.ProgramRun :=
  CommandLine.runProgram (Recording.world recording) (Recording.toolchain recording) false
    (toString elapsed) args

/-- Everything on the standard input. -/
partial def readInput (input : IO.FS.Stream) (read : ByteArray) : IO ByteArray := do
  let chunk ← input.read 65536
  if chunk.isEmpty then return read else readInput input (read ++ chunk)

/-- Answer a command line. -/
def answer (args : List String) : IO UInt32 := do
  -- help and mistakes are answered without a project
  match CommandLine.parse args with
  | .error stop => printRun (CommandLine.stopRun (.inside .empty []) stop)
  | .ok _ =>
    let started ← IO.monoMsNow
    let input ← readInput (← IO.getStdin) ByteArray.empty
    match Json.parse (Text.Utf8.decodeLossy input.toList) with
    | .error e =>
      (← IO.getStderr).putStr ("The recorded project is not valid JSON: " ++ e.message ++ "\n")
      return 1
    | .ok recording =>
      let elapsed := (← IO.monoMsNow) - started
      printRun (replay args recording elapsed)

end TypeLeak

/-- The program. -/
def main (args : List String) : IO UInt32 := TypeLeak.answer args
