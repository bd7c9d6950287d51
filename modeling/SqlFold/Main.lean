import SqlFold.Command.Run

/-!
# The command line tool

Reads the files that the arguments name, carries the command out and prints what it leaves behind.
-/

namespace SqlFold

/-- The content of a file, if it can be read. -/
def readIfPresent (path : String) : IO (Option String) := do
  try
    return some (← IO.FS.readFile path)
  catch _ => return none

/-- Carries a command line out on the files of the system. -/
def runCommand (i : Command.Invocation) : IO UInt32 := do
  let contents ← i.paths.mapM fun path => return (path, ← readIfPresent path)
  let finished := i.run fun path => (contents.lookup path).join
  IO.print finished.output
  IO.eprint finished.errorOutput
  return finished.code.toUInt32

/-- How the command is used. -/
def usage : String :=
  "usage: sqlfold [-c FILE] [-v] (tokens | ast | format | equations | resolve --catalog FILE)"
    ++ " (SQL | -f FILE)"

end SqlFold

/-- Carries the command line out. The exit code of one that cannot be read is two. -/
def main (args : List String) : IO UInt32 := do
  match SqlFold.Command.Invocation.ofArgs? args with
  | some i => SqlFold.runCommand i
  | none =>
    IO.eprintln SqlFold.usage
    return 2
