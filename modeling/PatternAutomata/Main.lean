import PatternAutomata.LineSearch

/-!
# The command line program

Model of `main` in `grep`: the only module that reads or prints.

Reads the file that the arguments name, prints what `LineSearch` says and ends as it says.
-/

open PatternAutomata

/-- The contents of a file, or why they cannot be read. -/
def readContents (file : String) : IO (Except LineSearch.ReadError ByteArray) := do
  try
    return .ok (← IO.FS.readBinFile file)
  catch
    | .noFileOrDirectory .. => return .error .missing
    | e => return .error (.other (toString e))

/-- Prints the lines of a file that match a pattern. -/
def main (args : List String) : IO UInt32 := do
  match LineSearch.Options.ofArgs? args with
  | .error e =>
    (← IO.getStderr).putStr s!"error: {e.message}\n"
    return 2
  | .ok o =>
    let outcome := o.run (← readContents o.file)
    (← IO.getStdout).putStr outcome.output
    (← IO.getStderr).putStr outcome.errors
    return UInt32.ofNat outcome.exitCode
