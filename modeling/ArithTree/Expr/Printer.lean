import ArithTree.Expr
import ArithTree.Fault

/-!
# Printing in prefix form

An operator is printed in parentheses with its symbol first, and its arguments after it, each behind
one space. A tree has no printed form (`print?`) if it holds an integer that is too long to be
written; to print it is then a fault (`print`).
-/

namespace ArithTree.Expr

mutual

/-- The prefix form of an expression. -/
def print? : Expr → Option String
  | .num n => n.print?
  | .var x => some x
  | .node op args => do
    let rest ← printAll? args
    some ("(" ++ op.symbol.toString ++ rest ++ ")")

/-- The prefix forms of arguments, each behind one space. -/
def printAll? : List Expr → Option String
  | [] => some ""
  | e :: es => do
    let first ← e.print?
    let rest ← printAll? es
    some (" " ++ first ++ rest)

end

/-- Prints an expression in prefix form. -/
def print (e : Expr) : Except Fault String :=
  match e.print? with
  | some s => .ok s
  | none => .error .unprintable

example : print? (.node .add [.var "x", .node .mul [.ofInt (-2), .var "y"], .node .add []]) =
    some "(+ x (* -2 y) (+))" := by
  decide +kernel

end ArithTree.Expr
