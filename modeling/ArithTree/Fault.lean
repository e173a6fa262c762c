import ArithTree.Op
import ArithTree.Text.Quoted

/-!
# What can go wrong

A text that is not an expression is refused with a `ParseError`. A tree can also have an integer
that is too long to be printed, or an operator with a number of arguments that it cannot have;
`Fault` covers all three. `ParseError.message` is the wording that users see.
-/

namespace ArithTree

/-- Why a text is not an expression. -/
inductive ParseError where
  /-- A parenthesis has no partner. -/
  | unbalanced
  /-- The word `token` is not an expression's, or does not belong where it stands; it is empty if
  there is no operand at all. -/
  | unexpected (token : String)
deriving DecidableEq

/-- The wording of a parse error. -/
def ParseError.message : ParseError → String
  | .unbalanced => "Mismatched parens"
  | .unexpected token => "Invalid token: " ++ quote token

/-- Why an operation on expressions has no result. -/
inductive Fault where
  /-- The text is not an expression. -/
  | parse (error : ParseError)
  /-- An integer is too long to be printed. -/
  | unprintable
  /-- An operator that takes two arguments has `count` of them. -/
  | arity (op : Op) (count : Nat)
deriving DecidableEq

end ArithTree
