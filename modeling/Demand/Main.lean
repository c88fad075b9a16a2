import Demand.CommandLine.Program

/-! The command line: reads the files that are named, runs the program on them, and prints. -/

namespace Demand.CommandLine

/-- Why the system did not give the bytes of a file. -/
def readErrorOf : IO.Error → ReadError
  | .noFileOrDirectory .. => .notFound
  | .inappropriateType _ 21 _ => .isDirectory
  | .inappropriateType _ 20 _ => .notDirectory
  | e => .other (toString e)

/-- The text of a file on disk. -/
def readText (path : String) : IO (Except ReadError String) := do
  match ← (IO.FS.readBinFile path).toBaseIO with
  | .ok bytes => return decodeText bytes
  | .error e => return .error (readErrorOf e)

end Demand.CommandLine

open Demand.CommandLine in
def main (args : List String) : IO UInt32 := do
  let paths := match Arguments.parse args with
    | .ok a => a.files
    | .error _ => []
  let texts ← paths.mapM fun p => do return (p, ← readText p)
  let ending := run "Lean" (fun p => (texts.lookup p).getD (.error .notFound)) args
  (← IO.getStdout).putStr ending.stdout
  (← IO.getStderr).putStr ending.stderr
  return ending.code.toUInt32
