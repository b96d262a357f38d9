import RefTree.CommandLine.Run

/-!
# Main — the program
-/

namespace RefTree.CommandLine

/-- The text of a file, if it can be read. -/
def readFile (path : String) : IO (Option String) := do
  try
    return String.fromUTF8? (← IO.FS.readBinFile path)
  catch _ =>
    return none

/-- More replacements in one string than a machine has time for. -/
def unboundedRescans : Nat := 1000000000000000000

end RefTree.CommandLine

open RefTree.CommandLine in
/-- Answer the command line. -/
def main (args : List String) : IO UInt32 := do
  let report ← run unboundedRescans readFile args
  (← IO.getStdout).putStr report.output
  (← IO.getStderr).putStr report.errors
  return report.exit.toUInt32
