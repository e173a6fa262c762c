import ArithTree.Text.Digit

/-!
# Arguments of the command line

What an argument can be by itself: an operand, one or more flags, a flag with something that cannot
be joined to it, or something that looks like a flag but is none. A long flag is written out or
shortened to a beginning that no other flag shares; letters of short flags may be joined behind one
hyphen, also with an equals sign after the first letter. No flag takes a value.
-/

namespace ArithTree

/-! ## Flags -/

/-- What a flag asks for. -/
inductive Flag where
  | help
  | reduce
  | verbose
deriving DecidableEq

namespace Flag

/-- All flags. -/
def all : List Flag := [.help, .reduce, .verbose]

/-- The letter of a flag, after one hyphen. -/
def letter : Flag → Char
  | .help => 'h'
  | .reduce => 'r'
  | .verbose => 'v'

/-- The name of a flag, after two hyphens. -/
def name : Flag → List Char
  | .help => ['h', 'e', 'l', 'p']
  | .reduce => ['r', 'e', 'd', 'u', 'c', 'e']
  | .verbose => ['v', 'e', 'r', 'b', 'o', 's', 'e']

/-- The flag with a given letter. -/
def ofLetter? (c : Char) : Option Flag := all.find? (·.letter = c)

/-- The flags whose names start with `cs`. -/
def startingWith (cs : List Char) : List Flag := all.filter (cs.isPrefixOf ·.name)

end Flag

/-! ## Arguments -/

/-- What an argument can be, unless it is `--`. -/
inductive Arg where
  /-- A file. -/
  | operand (text : String)
  /-- One or more flags. -/
  | flags (fs : List Flag)
  /-- A flag that is joined to a value, or to letters of which one is no flag's. -/
  | malformed
  /-- Something that looks like a flag, though there is none like it. -/
  | unknown
deriving DecidableEq

namespace Arg

/-- Is a text a hyphen and a number, whole or with a decimal point? One line feed may follow. -/
def isNegativeNumber : List Char → Bool
  | '-' :: rest =>
    let body := if rest.getLast? = some '\n' then rest.dropLast else rest
    match body.dropWhile isDecimalDigit with
    | [] => !body.isEmpty
    | '.' :: decimals => !decimals.isEmpty && decimals.all isDecimalDigit
    | _ => false
  | _ => false

/-- An argument that starts like a flag without being one: a negative number or a text with a space
is an operand. -/
def ofFlagless (s : String) : Arg :=
  if isNegativeNumber s.toList || s.toList.contains ' ' then .operand s else .unknown

/-- The flags of the letters that are joined to a flag's letter, if each of them has one. An equals
sign before them is passed over. -/
def joined? : List Char → Option (List Flag)
  | '=' :: c :: letters => (c :: letters).mapM Flag.ofLetter?
  | letters => letters.mapM Flag.ofLetter?

/-- What an argument is; nothing if it shortens the names of several flags. -/
def ofString? (s : String) : Option Arg :=
  match s.toList with
  | '-' :: '-' :: body =>
    -- A value is split off before the name is looked up, so `--help=x` is a flag with a value.
    match Flag.startingWith (body.takeWhile (· ≠ '=')) with
    | [f] => some (if body.contains '=' then .malformed else .flags [f])
    | [] => some (ofFlagless s)
    | _ => none
  | '-' :: c :: letters =>
    match Flag.ofLetter? c with
    | some f =>
      match joined? letters with
      | some fs => some (.flags (f :: fs))
      | none => some .malformed
    | none => some (ofFlagless s)
  | _ => some (.operand s)

example : ofString? "--red" = some (.flags [.reduce]) ∧
    ofString? "-rv" = some (.flags [.reduce, .verbose]) ∧
    ofString? "-r=v" = some (.flags [.reduce, .verbose]) ∧
    ofString? "-rx" = some .malformed := by
  decide +kernel

example : ofString? "-r=" = some .malformed ∧ ofString? "--reduce=v" = some .malformed ∧
    ofString? "-5" = some (.operand "-5") ∧ ofString? "--=" = none := by
  decide +kernel

end Arg

end ArithTree
