import ArithTree.Expr.Printer
import ArithTree.Simplify

/-!
# Log records

What is logged goes to the error stream, a line for each record, with the name of the part of the
program that it comes from and its level. A record has no message if an expression in it cannot be
printed; it is then left out.
-/

namespace ArithTree

/-- How important a record is. -/
inductive Level where
  | debug
  | warning
deriving DecidableEq

/-- The name of a level in the log. -/
def Level.name : Level → String
  | .debug => "DEBUG"
  | .warning => "WARNING"

/-- The part of the program that a record comes from. -/
inductive Origin where
  | simplifier
  | converter
deriving DecidableEq

/-- The name of a part of the program in the log. -/
def Origin.name : Origin → String
  | .simplifier => "polsky"
  | .converter => "prefixer"

/-- A record of the log. -/
structure Record where
  origin : Origin
  level : Level
  message : Option String
deriving DecidableEq

/-- A record as a line of the log. -/
def Record.line? (r : Record) : Option String :=
  r.message.map fun m => r.origin.name ++ ": " ++ r.level.name ++ ": " ++ m

namespace Event

/-- To run out of passes is worth a warning. -/
def level : Event → Level
  | .pass _ _ | .fixedPoint _ _ => .debug
  | .gaveUp _ _ => .warning

/-- The wording of an event, if its expression can be printed. -/
def message? : Event → Option String
  | .pass number e =>
    e.print?.map fun s => "pass " ++ decimal (Int.ofNat number) ++ ": " ++ s
  | .fixedPoint passes e =>
    e.print?.map fun s => "fixed point after " ++ decimal (Int.ofNat passes) ++ " passes: " ++ s
  | .gaveUp allowed e =>
    e.print?.map fun s =>
      "no fixed point after " ++ decimal allowed ++ " passes, giving up: " ++ s
where
  /-- The decimal text of an integer. -/
  decimal (n : Int) : String := String.ofList (Decimal.digits n)

/-- An event as a record of the log. -/
def record (e : Event) : Record := ⟨.simplifier, e.level, e.message?⟩

end Event

/-- What a simplification logs: a record of each event. -/
def Simplified.log (r : Simplified) : List Record := r.events.map Event.record

end ArithTree
