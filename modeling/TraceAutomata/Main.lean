import Std.Time.DateTime.Timestamp
import TraceAutomata.CommandLine.Session

/-!
The command line program: files, the standard streams, the clock and the environment of the
machine around a session of the command line.
-/

namespace TraceAutomata.CommandLine

def readFile (path : String) : IO (Option String) := do
  try
    return some (← IO.FS.readFile path)
  catch _ =>
    return none

/-- The directory of a file, which is empty where the path names none. -/
def directoryOf (path : String) : String :=
  "/".intercalate (path.splitOn "/").dropLast

/-- Writes a file; directories that are missing on the way to it are made. -/
def writeFile (path text : String) : IO Bool := do
  try
    let directory := directoryOf path
    if directory != "" then
      IO.FS.createDirAll directory
    IO.FS.writeFile path text
    return true
  catch _ =>
    return false

def currentMillis : IO Int64 := do
  let time ← Std.Time.Timestamp.now
  return Int64.ofInt time.val.toMilliseconds.val

def machine : Outside IO where
  fileText := readFile
  saveFile := writeFile
  inputText := do (← IO.getStdin).readToEnd
  now := currentMillis

/-- The variables of the environment that are set, among those that matter. -/
def environment : IO Environment := do
  let values ← Settings.variableNames.filterMapM fun name => do
    return (← IO.getEnv name).map fun value => (name, value)
  return .ofList values

end TraceAutomata.CommandLine

def main (arguments : List String) : IO UInt32 := do
  let env ← TraceAutomata.CommandLine.environment
  let output ← TraceAutomata.CommandLine.session TraceAutomata.CommandLine.machine env arguments
  IO.print output.out
  IO.eprint output.err
  return output.code.toUInt32
