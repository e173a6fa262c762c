import ArithTree.Expr.Parser
import ArithTree.Log

/-!
# Converting lines

Every line that is not blank holds one expression, which is written next to its prefix form. A line
that is not an expression is answered by the error and does not keep the lines after it from being
converted. An expression that cannot be printed ends the conversion.
-/

namespace ArithTree

/-- The lines that a conversion writes, what it logs, and the fault that ended it. -/
structure Conversion where
  written : List String
  log : List Record
  fault : Option Fault
deriving DecidableEq

namespace Conversion

/-- All that is written, as one text. -/
def output (c : Conversion) : String := String.join (c.written.map (· ++ "\n"))

/-- One conversion after another, unless the first one ended with a fault. -/
def andThen (c : Conversion) (next : Conversion) : Conversion :=
  match c.fault with
  | some _ => c
  | none => ⟨c.written ++ next.written, c.log ++ next.log, next.fault⟩

/-- The log of the converter itself, without that of the simplifications. -/
def ownLog (c : Conversion) : List Record := c.log.filter (·.origin = .converter)

end Conversion

/-- Writes an expression next to the text it was read from. The log says how it was simplified. -/
def report (text : String) (e : Expr) (log : List Record) : Conversion :=
  match e.print? with
  | some s => ⟨[text ++ " -> " ++ s], log, none⟩
  | none => ⟨[], log, some .unprintable⟩

/-- Converts a line, simplifying its expression or leaving it as it is. -/
def convertLine (simplify : Bool) (line : String) : Conversion :=
  let text := String.ofList (strip line.toList)
  if text.isEmpty then ⟨[], [], none⟩
  else
    match Expr.parse text with
    | .error (.parse error) =>
      ⟨["Error encountered: " ++ error.message],
        [⟨.converter, .debug, some ("failed to parse " ++ quote text)⟩], none⟩
    | .error fault => ⟨[], [], some fault⟩
    | .ok e =>
      if simplify then
        match e.simplify with
        | .ok r => report text r.expr r.log
        | .error fault => ⟨[], [], some fault⟩
      else report text e []

/-- Converts lines one after another. -/
def convertLines (simplify : Bool) : List String → Conversion
  | [] => ⟨[], [], none⟩
  | line :: rest => (convertLine simplify line).andThen (convertLines simplify rest)

end ArithTree
