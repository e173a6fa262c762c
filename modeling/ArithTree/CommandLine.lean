import ArithTree.CommandLine.Request
import ArithTree.Convert
import ArithTree.Text.Lines

/-!
# The command

`run` is the whole program as a function: from the arguments, the texts of the files and the wish
for debugging records to what is written and how the program ends.
-/

namespace ArithTree

/-- Converts the lines of a text. -/
def convertText (reduce : Bool) (text : String) : Conversion :=
  convertLines reduce ((lines text.toList).map String.ofList)

/-- What the error stream shows of a log: debugging records only on demand, and no record without a
message. -/
def shownLog (debug : Bool) (log : List Record) : List String :=
  (log.filter fun r => debug || r.level ≠ .debug).filterMap Record.line?

/-- How a run of the program ends. -/
inductive Outcome where
  /-- Nothing was converted. -/
  | exit (code : Nat)
  /-- A text was converted, and lines were shown on the error stream. -/
  | converted (conversion : Conversion) (shown : List String)

/-- Runs the program. `contents` gives the text of each file that can be read, and `debug` asks for
the debugging records that the flag `verbose` asks for too. -/
def run (contents : String → Option String) (debug : Bool) (args : List String) : Outcome :=
  match Request.ofArgs (fun file => (contents file).isSome) args with
  | .help => .exit 0
  | .invalid => .exit 2
  | .convert file reduce verbose =>
    let c := convertText reduce ((contents file).getD "")
    .converted c (shownLog (debug || verbose) c.log)

end ArithTree
