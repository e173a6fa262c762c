import ArithTree.Expr.Printer
import ArithTree.StackCode.OfTokens

/-!
# Reading infix expressions

An expression is read by turning its tokens into stack code and running that on an empty stack. The
run has to leave one expression; of several, the second is reported. `adjust` sees every
application before it becomes part of a larger one, so an expression can be simplified while it is
read; `parse` leaves it as it is. `traceTokens` notes every application that `adjust` sees.
-/

namespace ArithTree

namespace Stack

/-- The one expression that reading left. -/
def sole (stack : Stack) : Except Fault Expr :=
  match stack.reverse with
  | [e] => .ok e
  | [] => .error (.parse (.unexpected ""))
  | _ :: second :: _ => do throw (.parse (.unexpected (← second.print)))

end Stack

namespace Program

/-- The expression that a program builds. An error met while its code runs comes before the
program's own. -/
def eval (adjust : Expr → Except Fault Expr) (p : Program) : Except Fault Expr := do
  let stack ← Stack.run adjust [] p.code
  match p.error with
  | some error => throw (.parse error)
  | none => stack.sole

end Program

/-- The expression that tokens stand for, every application being passed through `adjust`. -/
def parseTokens (adjust : Expr → Except Fault Expr) (ts : List Token) : Except Fault Expr :=
  (Program.ofTokens ts).eval adjust

/-- The applications that reading tokens hands to `adjust`, in order. -/
def builtTokens (adjust : Expr → Except Fault Expr) (ts : List Token) : List Expr :=
  Stack.built adjust [] (Program.ofTokens ts).code

/-- How reading went: the prefix forms of the applications that were built, in order, and the
expression or the parse error that it ended with. -/
structure Trace where
  built : List String
  result : Except ParseError Expr

/-- How reading tokens goes if each application is printed before `adjust` sees it. An application
that cannot be printed ends it with a fault, as does one that `adjust` refuses. -/
def traceTokens (adjust : Expr → Except Fault Expr) (ts : List Token) : Except Fault Trace := do
  -- What is built before a parse error is printed before it is met.
  let built ← (builtTokens adjust ts).mapM Expr.print
  match parseTokens adjust ts with
  | .ok e => return ⟨built, .ok e⟩
  | .error (.parse error) => return ⟨built, .error error⟩
  | .error fault => throw fault

namespace Expr

/-- The expression that a text stands for, every application being passed through `adjust`. -/
def parseWith (adjust : Expr → Except Fault Expr) (s : String) : Except Fault Expr :=
  parseTokens adjust (tokens s)

/-- The expression that a text stands for. -/
def parse (s : String) : Except Fault Expr := parseWith .ok s

end Expr

end ArithTree
