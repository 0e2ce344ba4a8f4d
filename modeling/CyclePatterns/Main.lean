/-
The command line program.

Only here is anything read or printed: the files that a request names, and its outcome.
-/
import CyclePatterns.Command.Run

open CyclePatterns

/-- The content of a file, if it can be read. -/
def readFile? (path : String) : IO (Option String) := do
  try
    return some (← IO.FS.readFile path)
  catch _ =>
    return none

/-- Runs the program on the words of its command line. -/
def main (words : List String) : IO UInt32 := do
  let names := match Command.parse words with
    | .request r => r.files
    | _ => []
  let contents ← names.mapM fun path => do return (path, ← readFile? path)
  let outcome := Command.run words fun path => (contents.lookup path).join
  IO.print outcome.output
  return UInt32.ofNat outcome.code
