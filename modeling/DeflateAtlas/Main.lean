import DeflateAtlas.CommandLine

/-!
# The program

Reads the file named on the command line and prints the report on it; the log
and failures go to the error output.
-/

namespace DeflateAtlas

/-- The content of a file, or nothing if it cannot be read. -/
def readFile? (path : String) : IO (Option Bytes) := do
  try
    let content ← IO.FS.readBinFile path
    return some content.data
  catch _ =>
    return none

/-- Print the report of an invocation. -/
def Invocation.run (invocation : Invocation) : IO UInt32 := do
  let file ← readFile? invocation.input
  let report := invocation.report file
  for text in report.log.shown invocation.threshold do
    IO.eprintln text
  for text in report.lines do
    IO.println text
  if let some failure := report.failure then
    IO.eprintln s!"{invocation.input}: {failure.text}"
  return report.exitStatus.toUInt32

end DeflateAtlas

/-- Carry out the command line. -/
def main (arguments : List String) : IO UInt32 := do
  match DeflateAtlas.Request.ofArguments? arguments with
  | none =>
      IO.eprint DeflateAtlas.usage
      return DeflateAtlas.usageStatus.toUInt32
  | some .help =>
      IO.print DeflateAtlas.usage
      return 0
  | some (.locate invocation) => invocation.run
