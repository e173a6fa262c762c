import ArithTree.Expr.Parser
import ArithTree.Simplify

/-!
# Simplifying what is read and written

An expression can be simplified when it has been read, or while it is read: then every application
is simplified before it becomes part of a larger one. It can also be simplified just before it is
written.
-/

namespace ArithTree

/-- When an expression that is read is simplified. -/
inductive Strategy where
  /-- It is left as it is. -/
  | never
  /-- It is simplified as a whole. -/
  | atEnd
  /-- Each of its applications is simplified as soon as it is read. -/
  | eager
deriving DecidableEq

namespace Expr

/-- The expression that a text stands for, simplified as the strategy says. -/
def read (strategy : Strategy) (s : String) : Except Fault Expr :=
  match strategy with
  | .never => parse s
  | .atEnd => do simplified (← parse s)
  | .eager => parseWith simplified s

/-- The prefix form of an expression when it has been simplified. -/
def printSimplified (e : Expr) : Except Fault String := do print (← e.simplified)

end Expr

end ArithTree
