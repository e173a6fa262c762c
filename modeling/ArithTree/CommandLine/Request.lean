import ArithTree.CommandLine.Arg

/-!
# What a command line asks for

A command line asks for help, or for the lines of one file to be converted, or for nothing that can
be done. Arguments are read from left to right. What is refused at once is an ambiguous flag, a
malformed one and a file that cannot be read; help is given at once, too. What is missing or too
many is refused only at the end, so that a later argument can still ask for help.
-/

namespace ArithTree

/-- What the arguments ask for. -/
inductive Request where
  /-- To be told how the program is used. -/
  | help
  /-- Nothing that the program can do. -/
  | invalid
  /-- To convert the lines of a file. -/
  | convert (file : String) (reduce verbose : Bool)
deriving DecidableEq

namespace Request

/-- What has been read of the arguments: the file, whether it was the last argument, whether an
argument was one too many, and the flags. -/
structure Reading where
  file : Option String
  justRead : Bool
  surplus : Bool
  reduce : Bool
  verbose : Bool

namespace Reading

/-- Nothing has been read. -/
def start : Reading := ⟨none, false, false, false, false⟩

/-- The request, if there are no more arguments. -/
def finish (r : Reading) : Request :=
  match r.file, r.surplus with
  | some file, false => .convert file r.reduce r.verbose
  | _, _ => .invalid

/-- Takes note of a flag that does not ask for help. -/
def flag (r : Reading) : Flag → Reading
  | .help => r
  | .reduce => { r with reduce := true }
  | .verbose => { r with verbose := true }

end Reading

variable (readable : String → Bool)

/-- The request of the operands after `--`. The separator itself is one argument too many if the
file was read before, and not right before it. -/
def ofOperands (r : Reading) (operands : List String) : Request :=
  match r.file, operands with
  | none, [file] => if readable file then { r with file := some file }.finish else .invalid
  | some _, [] => if r.justRead then r.finish else .invalid
  | _, _ => .invalid

/-- The request of the arguments after those that have been read. -/
def ofArgsFrom (r : Reading) : List String → Request
  | [] => r.finish
  | s :: rest =>
    if s = "--" then ofOperands readable r rest
    else
      match Arg.ofString? s with
      | none | some .malformed => .invalid
      | some .unknown => ofArgsFrom { r with justRead := false, surplus := true } rest
      | some (.flags fs) =>
        if .help ∈ fs then .help
        else ofArgsFrom { fs.foldl Reading.flag r with justRead := false } rest
      | some (.operand file) =>
        match r.file with
        | some _ => ofArgsFrom { r with justRead := false, surplus := true } rest
        | none =>
          if readable file then ofArgsFrom { r with file := some file, justRead := true } rest
          else .invalid

/-- The request of all arguments. An ambiguous one before `--` is refused before any other is looked
at. -/
def ofArgs (args : List String) : Request :=
  if (args.takeWhile (· ≠ "--")).any fun s => (Arg.ofString? s).isNone then .invalid
  else ofArgsFrom readable .start args

example : ofArgs (fun _ => true) ["-v", "a.txt", "--"] = .convert "a.txt" false true ∧
    ofArgs (fun _ => true) ["a.txt", "-v", "--"] = .invalid ∧
    ofArgs (fun _ => false) ["--what", "--help"] = .help := by
  decide +kernel

end Request

end ArithTree
