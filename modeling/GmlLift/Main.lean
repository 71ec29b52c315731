import GmlLift.CommandLine

/-! The program: it reads the listed files and leaves the rest to `CommandLine.runWith`. -/

namespace GmlLift.CommandLine

def usage : String :=
  "Usage: gmllift [--registry FILE] [--settings FILE] [--skip FEATURE]... [--legacy] "
    ++ "[--asset-references] [--older-exception-handling] [-v] FILES..."

/-- A file's contents with its path, if it can be read. -/
def readListed (path : String) : IO (Option (String × String)) := do
  try return some (path, ← IO.FS.readFile path)
  catch _ => return none

end GmlLift.CommandLine

open GmlLift.CommandLine in
def main (arguments : List String) : IO UInt32 := do
  match Options.ofArguments? arguments with
  | none =>
    IO.eprintln usage
    return 2
  | some options =>
    let files ← options.paths.filterMapM readListed
    let outcome := runWith (fun path => files.lookup path) options
    IO.print outcome.output
    match outcome.error with
    | none => return 0
    | some e =>
      IO.eprintln ("Error: " ++ e)
      return 1
