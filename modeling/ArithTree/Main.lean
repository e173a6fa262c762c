import ArithTree.CommandLine

/-!
# The program

Reads the files that the command line may name, with `-` for standard input, and writes what `run`
says to the standard streams.
-/

namespace ArithTree

/-- How the program is used. -/
def usage : String := "usage: [-h] [-r] [-v] [--] file"

/-- The text that has been read and the rest of a stream. -/
partial def readAll (input : IO.FS.Stream) (seen : String) : IO String := do
  let line ← input.getLine
  if line.isEmpty then return seen else readAll input (seen ++ line)

/-- The text of a file, if it can be read. -/
def readFile? (file : String) : IO (Option String) := do
  try return some (← IO.FS.readFile file) catch _ => return none

/-- The names and the texts of the files among the arguments. Standard input is read only if it is
asked for and no help is. -/
def readFiles (args : List String) : IO (List (String × String)) := do
  let files ← (args.filter (· ≠ "-")).filterMapM fun file => do
    return (← readFile? file).map (file, ·)
  let readable (file : String) : Bool := file = "-" || (List.lookup file files).isSome
  match Request.ofArgs readable args with
  | .convert "-" _ _ => return ("-", ← readAll (← IO.getStdin) "") :: files
  | _ => return ("-", "") :: files

end ArithTree

open ArithTree in
/-- Runs the program and reports how it ended. -/
def main (args : List String) : IO UInt32 := do
  let files ← readFiles args
  let debug := ((← IO.getEnv "DEBUG").getD "") ≠ ""
  match run (List.lookup · files) debug args with
  | .exit code =>
    IO.println usage
    return UInt32.ofNat code
  | .converted c shown =>
    for line in shown do IO.eprintln line
    IO.print c.output
    return if c.fault.isNone then 0 else 1
